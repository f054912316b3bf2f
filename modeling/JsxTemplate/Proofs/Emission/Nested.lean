import JsxTemplate.Proofs.Emission.Scoping
import JsxTemplate.Proofs.Script.Scope

/-!
# Elements in expressions

An expression may hold elements. Each of them is replaced by a call of a function with the code of its
block, and the rest of the expression is kept, except that variables of loops and slots are replaced.

The block of such an element is written as if it stood outside of the expression. So its variables are
replaced as they would be there. A function of the expression around the element may introduce some of
them for itself; these are kept only if no loop or slot around the expression knows them.
-/

namespace JsxTemplate

open Emit Correspondence

/-! ## The code of a block where something is in force -/

def Block.listing (κ : Ambient) (b : Block) : Listing :=
  (Listing.blockBody false b (Scene.start ⟨κ, []⟩)).1

theorem Block.blockBody_fst (b : Block) (s : Emitter) :
    (Listing.blockBody false b s).1 = b.listing s.scene.toAmbient := by
  obtain ⟨_, -, l, l', _, hx, hy, rfl⟩ := (identity_body b).blockBody false
    (σ := s.scene) (τ := ⟨s.scene.toAmbient, []⟩) ⟨.refl _, rfl⟩
  rw [(hx s rfl).1, ← hy.value]
  rfl

theorem Block.listing_congr {κ κ' : Ambient} (b : Block) (hmatch : κ.Matches κ')
    (hoptions : κ.options.optimizeLoops = κ'.options.optimizeLoops) :
    b.listing κ = b.listing κ' := by
  obtain ⟨_, -, l, l', _, hx, hy, rfl⟩ := (identity_body b).blockBody false
    (σ := ⟨κ, []⟩) (τ := ⟨κ', []⟩) ⟨hmatch, hoptions⟩
  exact hx.value.trans hy.value.symm

/-! ## Protected names -/

namespace Ambient

/-- What is in force where some names stand for themselves. -/
def protect (κ : Ambient) (names : List String) : Ambient := κ.push (names.map fun name => (name, none))

theorem innermost?_protect (names : List String) (name : String) :
    Renaming.innermost? (names.map fun name => (name, none)) name =
      if name ∈ names then some none else none := by
  unfold Renaming.innermost?
  split
  · next hmem =>
    have hsome : (((names.map fun name => (name, (none : Option String))).reverse.find?
        fun entry => entry.1 == name)).isSome := by
      simpa using hmem
    obtain ⟨entry, hentry⟩ := Option.isSome_iff_exists.mp hsome
    have hlast := List.mem_of_find?_eq_some hentry
    simp only [List.mem_reverse, List.mem_map] at hlast
    obtain ⟨_, _, rfl⟩ := hlast
    rw [hentry]
    rfl
  · next hmem =>
    rw [Option.map_eq_none_iff, List.find?_eq_none]
    intro entry hentry
    obtain ⟨x, hx, rfl⟩ := List.mem_map.mp (List.mem_reverse.mp hentry)
    simp only [beq_iff_eq]
    rintro rfl
    exact hmem hx

theorem replacement?_protect (κ : Ambient) (names : List String) (name : String) :
    (κ.protect names).names.replacement? name =
      if name ∈ names then none else κ.names.replacement? name := by
  rw [Renaming.replacement?, protect, push, Renaming.find?_push, innermost?_protect]
  split <;> rfl

theorem matches_protect {κ : Ambient} {names : List String}
    (h : ∀ name ∈ names, κ.names.replacement? name = none) : κ.Matches (κ.protect names) := by
  refine ⟨rfl, rfl, fun name => ?_, rfl⟩
  rw [replacement?_protect]
  split
  · next hmem => exact h name hmem
  · rfl

end Ambient

/-! ## Expressions with elements -/

namespace Script.Tree

/-- The functions of a tree around a range of bytes. -/
def functionsAround (t : Tree) (start stop : Nat) : List Tree :=
  t.nodes.filter fun n =>
    (n.kind == .arrow || n.kind == .function) && n.span.start ≤ start && stop ≤ n.span.stop

end Script.Tree

namespace Expression

variable (e : Expression)

/-- The names that the functions of an expression around an element introduce for themselves. -/
def boundAround (element : NestedBlock) : List String :=
  match Script.tree? e.content with
  | none => []
  | some t => (t.functionsAround (element.start - e.loc.start.offset)
      (element.stop - e.loc.start.offset)).flatMap Script.Tree.ownBindings

/-- The expression from byte `last` on, in which the elements are replaced by calls of functions; `scope`
says what is in force where the block of an element is written. -/
def splicedFrom (names : Renaming) (references : List Script.Reference) (scope : NestedBlock → Ambient)
    (last : Nat) : List NestedBlock → Listing
  | [] => .ofCode (e.substitute names references last e.content.utf8ByteSize).1
  | element :: elements =>
    if isInside e element.start element.stop then
      Listing.ofCode (e.substitute names references last (element.start - e.loc.start.offset)).1
        ++ [.text "(", .function [] (element.block.listing (scope element)), .text ")()"]
        ++ splicedFrom names references scope (element.stop - e.loc.start.offset) elements
    else splicedFrom names references scope last elements

/-- An expression in which elements are replaced by calls of functions. -/
def spliced (names : Renaming) (scope : NestedBlock → Ambient) (elements : List NestedBlock) : Listing :=
  e.splicedFrom names ((Script.references? e.content).getD []) scope 0 elements

/-- A value of nodes: a function, unless it never changes. -/
def asValue (once : Bool) (code : Listing) : Listing :=
  if once || e.isStatic || e.isConstant then code else code.getter

theorem splicedFrom_congr {names : Renaming} {references references' : List Script.Reference}
    {scope scope' : NestedBlock → Ambient} {elements : List NestedBlock}
    (hsame : ∀ start stop, (e.substitute names references start stop).1 =
      (e.substitute names references' start stop).1)
    (hscope : ∀ element ∈ elements, isInside e element.start element.stop = true →
      element.block.listing (scope element) = element.block.listing (scope' element)) (last : Nat) :
    e.splicedFrom names references scope last elements =
      e.splicedFrom names references' scope' last elements := by
  induction elements generalizing last with
  | nil => rw [splicedFrom, splicedFrom, hsame]
  | cons element elements ih =>
    have ih := ih fun element hm => hscope element (List.mem_cons_of_mem _ hm)
    rw [splicedFrom, splicedFrom]
    split
    · next hin => rw [hsame, hscope element List.mem_cons_self hin, ih]
    · exact ih last

theorem nestedExpression_fst (references : List Script.Reference) (last : Nat)
    (elements : List NestedBlock) (s : Emitter) :
    (Listing.nestedExpression e references last elements s).1 =
      e.splicedFrom s.names references (fun _ => s.scene.toAmbient) last elements := by
  induction elements generalizing last s with
  | nil => rw [Listing.nestedExpression, splicedFrom]; rfl
  | cons element elements ih =>
    obtain ⟨start, stop, b⟩ := element
    rw [Listing.nestedExpression, splicedFrom]
    split
    · have hscene : (thunk (Listing.blockBody false b) s).2.scene = s.scene := by
        obtain ⟨_, _, _, hx, -⟩ := (functions_body b).thunk (σ := s.scene) (τ := s.scene) ⟨rfl, rfl⟩
        exact (hx s rfl).2.1
      have hnames : (thunk (Listing.blockBody false b) s).2.names = s.names :=
        congrArg (·.names) hscene
      have hrest := ih (stop - e.loc.start.offset) (thunk (Listing.blockBody false b) s).2
      rw [hnames, hscene] at hrest
      have hthunk : (thunk (Listing.blockBody false b) s).1 =
          [.function [] (b.listing s.scene.toAmbient)] := by
        rw [← Block.blockBody_fst]
        rfl
      change Listing.ofCode (e.substitute s.names references last (start - e.loc.start.offset)).1
          ++ .text "(" :: (thunk (Listing.blockBody false b) s).1 ++ .text ")()"
          :: (Listing.nestedExpression e references (stop - e.loc.start.offset) elements
            (thunk (Listing.blockBody false b) s).2).1 = _
      rw [hthunk, hrest]
      simp only [List.append_assoc, List.cons_append, List.nil_append]
    · exact ih last s

theorem nodeValue_fst {once : Bool} {elements : List NestedBlock} {s : Emitter}
    (hin : (elements.any fun element => isInside e element.start element.stop) = true) :
    (nodeValue once elements
        (fun e references => Listing.nestedExpression e references 0 elements) e s).1 =
      e.asValue once (e.spliced s.names (fun _ => s.scene.toAmbient) elements) := by
  have hreferences : (nestedReferences e s).2 = s := by
    unfold nestedReferences
    simp only [run_bind, run_ite]
    split <;> rfl
  have hrun : (nodeValue once elements
      (fun e references => Listing.nestedExpression e references 0 elements) e s).1 =
        e.asValue once (Listing.nestedExpression e (nestedReferences e s).1 0 elements s).1 := by
    unfold nodeValue
    rw [hin]
    simp only [run_bind, hreferences, if_true]
    rfl
  rw [hrun, nestedExpression_fst, spliced]
  congr 1
  refine e.splicedFrom_congr (fun start stop => ?_) (fun _ _ _ => rfl) 0
  rw [(yields_nestedReferences s.scene e s rfl).1]
  exact substitute_references s.names e _ start stop

/-- The block of an element in an expression is written with what is in force outside of the expression.
If no name that a function of the expression around the element introduces is replaced there, this is the
code in which these names stand for themselves. -/
theorem elements_written_in_outer_scope (once : Bool) (elements : List NestedBlock) (s : Emitter)
    (hin : (elements.any fun element => isInside e element.start element.stop) = true) :
    let κ := s.scene.toAmbient
    let value := (nodeValue once elements
      (fun e references => Listing.nestedExpression e references 0 elements) e s).1
    value = e.asValue once (e.spliced κ.names (fun _ => κ) elements) ∧
    ((∀ element ∈ elements, isInside e element.start element.stop = true →
        ∀ name ∈ e.boundAround element, κ.names.replacement? name = none) →
      value = e.asValue once
        (e.spliced κ.names (fun element => κ.protect (e.boundAround element)) elements)) ∧
    ∀ names name, (κ.protect names).names.replacement? name =
      if name ∈ names then none else κ.names.replacement? name := by
  intro κ value
  have hvalue : value = e.asValue once (e.spliced κ.names (fun _ => κ) elements) := e.nodeValue_fst hin
  refine ⟨hvalue, fun hfree => ?_, κ.replacement?_protect⟩
  rw [hvalue, spliced, spliced]
  congr 1
  refine e.splicedFrom_congr (fun _ _ => rfl) (fun element hm hin => ?_) 0
  exact element.block.listing_congr (Ambient.matches_protect (hfree element hm hin)) rfl

/-! ## An element in a callback -/

def listed : Expression :=
  ⟨"ys.map(y => <b>\x7by\x7d</b>)", false, ⟨.first, ⟨23, 1, 24⟩, ""⟩⟩

def listedElement : NestedBlock :=
  ⟨12, 22, ⟨.stub, ⟨none, false, false, false, none,
      [⟨some 0, true, false, false, none, [], some 0, false, none⟩], none, false, none⟩,
    [⟨[.ofScript "y"], [.setText 0 [.ofScript "y"] true]⟩], [.getTextChild 0], [0]⟩⟩

def insideLoop (name : String) : Emitter :=
  ⟨⟨false, true⟩, false, [], [], [(name, some "_for_item0.value")], 1, []⟩

/-- In a loop over `x`, the parameter `y` of the callback stands for itself. -/
theorem elements_written_in_outer_scope_listed :
    ([listedElement].any fun element => isInside listed element.start element.stop) = true ∧
    listed.boundAround listedElement = ["y"] ∧
    (insideLoop "x").names.replacement? "y" = none ∧
    (nodeValue false [listedElement]
        (fun e references => Listing.nestedExpression e references 0 [listedElement]) listed
        (insideLoop "x")).1 =
      listed.asValue false (listed.spliced (insideLoop "x").names
        (fun element => (insideLoop "x").scene.toAmbient.protect (listed.boundAround element))
        [listedElement]) := by
  have hin : ([listedElement].any fun element => isInside listed element.start element.stop) = true := by
    decide +kernel
  have hbound : listed.boundAround listedElement = ["y"] := by decide +kernel
  have hfree : (insideLoop "x").names.replacement? "y" = none := by decide +kernel
  refine ⟨hin, hbound, hfree, ?_⟩
  refine (listed.elements_written_in_outer_scope false [listedElement] (insideLoop "x") hin).2.1 ?_
  intro element helement _ name hname
  rw [List.mem_singleton.mp helement, hbound] at hname
  rw [List.mem_singleton.mp hname]
  exact hfree

/-- In a loop over `y`, the parameter `y` of the callback is taken for the item of the loop. -/
theorem loop_replaces_parameter_of_callback :
    let κ := (insideLoop "y").scene.toAmbient
    (nodeValue false [listedElement]
        (fun e references => Listing.nestedExpression e references 0 [listedElement]) listed
        (insideLoop "y")).1.code.render =
      "() => (ys.map(y => (() => \x7b\n  const n0 = t0()\n  const x0 = _child(n0)\n  " ++
        "_renderEffect(() => _setText(x0, _toDisplayString(_for_item0.value)))\n  return n0\n\x7d)()))" ∧
    (listed.asValue false (listed.spliced κ.names
        (fun element => κ.protect (listed.boundAround element)) [listedElement])).code.render =
      "() => (ys.map(y => (() => \x7b\n  const n0 = t0()\n  const x0 = _child(n0)\n  " ++
        "_renderEffect(() => _setText(x0, _toDisplayString(y)))\n  return n0\n\x7d)()))" := by
  decide +kernel

end Expression

end JsxTemplate
