import Mathlib.Data.List.Induction
import JsxTemplate.Proofs.Emission.Function
import JsxTemplate.Proofs.Loop.Destructuring

/-!
# What the code reads for the names of an item

The code for an item reads a name by a path and at most one helper at its end. That gives what the name
is bound to as long as no default is needed before the end of the way: a default in the middle is not
applied where it belongs. It is handed on to the names behind it, where it stands for values that are
missing there, and where it would have been needed the path breaks off.
-/

namespace JsxTemplate

variable {moves : List Move} {names : List String} {m : Move}

open Script (Key Semantics Scope Tree Value)

def Move.keys : Move → List Key
  | .property key => [key]
  | .others keys => keys
  | .element _ | .remaining _ | .default _ => []

namespace Way

def code (item : String) (w : Way) : String :=
  let path := item ++ ".value" ++ path w.moves
  match lastHelper? w.moves with
  | some (.others keys) =>
    "_getRestElement(" ++ path ++ ", " ++ "[" ++ ", ".intercalate (keys.map Key.written) ++ "]" ++ ")"
  | some (.default expression) => "_getDefaultValue(" ++ path ++ ", " ++ expression ++ ")"
  | _ => path

/-- The last helper, if it is that of a pattern around the name and not of the name itself. -/
def inherited? (moves : List Move) : Option Move :=
  if moves.getLast?.any Move.isHelper then none else lastHelper? moves

theorem inherited?_snoc (moves : List Move) (h : m.isHelper = false) :
    inherited? (moves ++ [m]) = lastHelper? moves := by
  simp [inherited?, lastHelper?_snoc_of_not_isHelper, h]

theorem of_inherited? (h : inherited? moves = some m) :
    moves.getLast?.any Move.isHelper = false ∧ lastHelper? moves = some m := by
  unfold inherited? at h
  split at h
  · cases h
  · next hlast => exact ⟨Bool.eq_false_iff.mpr hlast, h⟩

theorem mem_of_lastHelper? (h : lastHelper? moves = some m) : m ∈ moves ∧ m.isHelper = true :=
  List.mem_filter.mp (List.mem_of_getLast? h)

theorem code_binding (item : String) (w : Way) : w.binding.code item = w.code item := by
  have hrest : "_" ++ "getRestElement" ++ "(" = "_getRestElement(" := rfl
  have hdefault : "_" ++ "getDefaultValue" ++ "(" = "_getDefaultValue(" := rfl
  simp only [LoopBinding.code, binding, code, hrest, hdefault]
  rcases lastHelper? w.moves with _ | _ | _ | _ | keys | expression
  case some.others => simp only [Option.bind_some, Move.helper?, String.append_assoc]
  all_goals rfl

end Way

namespace Script.Semantics

variable {V : Type} [DecidableEq V] (sem : Semantics V) (here : Scope V)

def readStep : Move → V → Option V
  | .property (.name text), v => sem.get v (sem.string text)
  | .property key, v => (sem.evaluate here key.written).bind (sem.get v)
  | .element index, v => sem.get v (sem.number index)
  | .remaining index, v => sem.slice v index
  | .others _, v | .default _, v => some v

def readPath (moves : List Move) (v : V) : Option V := moves.foldlM (fun v m => sem.readStep here m v) v

/-- What a helper gives for a value. Its arguments are evaluated in any case. -/
def help : Option Move → V → Option V
  | some (.others keys), v => (keys.mapM fun key => sem.evaluate here key.written).bind (sem.without v)
  | some (.default expression), v =>
    (sem.evaluate here expression).map fun u => if v = sem.missing then u else v
  | _, v => some v

/-- What the code reads from an item for a name, as it is written by `Way.code`. -/
def read (w : Way) (item : V) : Option V :=
  (sem.readPath here w.moves item).bind (sem.help here (Way.lastHelper? w.moves))

/-- Whether nothing can be read from what is missing. -/
structure MissingFails : Prop where
  get : ∀ key, sem.get sem.missing key = none
  slice : ∀ index, sem.slice sem.missing index = none

/-- Whether going through a value gives what its indices give, as for an array. -/
def IsIndexed (v : V) : Move → Prop
  | .element index => ∀ u, sem.step v index = some u → sem.get v (sem.number index) = some u
  | .remaining index => ∀ u, sem.collect v index = some u → sem.slice v index = some u
  | _ => True

/-- Whether steps mean what they are written as: keys are written as what they are, and what is gone
through is indexed. -/
structure Literal (item : V) (moves : List Move) : Prop where
  keys : ∀ m ∈ moves, ∀ key ∈ m.keys, sem.evaluate here key.written = sem.key here key
  indexed : ∀ done m rest v, moves = done ++ m :: rest → sem.follow here done item = some v →
    sem.IsIndexed v m

/-- Whether the texts on a way mean in the code what they mean in the pattern: steps mean what they are
written as, expressions keep their values, and a default that is written has a value. -/
structure Plain (outer : Scope V) (names : List String) (item : V) (moves : List Move) : Prop
    extends Literal sem here item moves where
  keeps : sem.KeepsMoves outer here names moves
  default : ∀ e, Way.lastHelper? moves = some (.default e) → ∃ u, sem.evaluate here e = some u

/-- Whether a default is needed on a way, with the steps `rest` behind it. -/
def Needs (item : V) (moves rest : List Move) : Prop :=
  ∃ done e, moves = done ++ .default e :: rest ∧ sem.follow here done item = some sem.missing

section

variable {sem here}

omit [DecidableEq V] in
theorem readPath_append (moves rest : List Move) (v : V) :
    sem.readPath here (moves ++ rest) v = (sem.readPath here moves v).bind (sem.readPath here rest) :=
  List.foldlM_append

omit [DecidableEq V] in
theorem readPath_snoc (moves : List Move) (m : Move) (v : V) :
    sem.readPath here (moves ++ [m]) v = (sem.readPath here moves v).bind (sem.readStep here m) := by
  simp [readPath, List.foldlM_append]

omit [DecidableEq V] in
theorem readStep_of_isHelper (h : m.isHelper = true) (v : V) : sem.readStep here m v = some v := by
  cases m with
  | others | default => rfl
  | property | element | remaining => cases h

omit [DecidableEq V] in
theorem readStep_missing (hmissing : sem.MissingFails) (h : m.isHelper = false) :
    sem.readStep here m sem.missing = none := by
  cases m with
  | property key => cases key <;> simp [readStep, hmissing.get]
  | element index => exact hmissing.get _
  | remaining index => exact hmissing.slice _
  | others | default => cases h

omit [DecidableEq V] in
theorem readPath_missing (hmissing : sem.MissingFails) (h : ∃ m ∈ moves, m.isHelper = false) :
    sem.readPath here moves sem.missing = none := by
  induction moves with
  | nil => simp at h
  | cons m moves ih =>
    show (sem.readStep here m sem.missing).bind (sem.readPath here moves) = none
    cases hm : m.isHelper with
    | false => rw [readStep_missing hmissing hm, Option.bind_none]
    | true =>
      rw [readStep_of_isHelper hm, Option.bind_some]
      exact ih (by simpa [hm] using h)

omit [DecidableEq V] in
theorem mapM_written {keys : List Key}
    (h : ∀ key ∈ keys, sem.evaluate here key.written = sem.key here key) :
    keys.mapM (fun key => sem.evaluate here key.written) = keys.mapM (sem.key here) := by
  induction keys with
  | nil => rfl
  | cons key keys ih =>
    have hkeys := ih fun key' hkey' => h key' (List.mem_cons_of_mem _ hkey')
    rw [List.mapM_cons, List.mapM_cons, h key List.mem_cons_self, hkeys]

namespace Literal

variable {item v u : V} {moves rest : List Move} {m : Move}

theorem init (h : sem.Literal here item (moves ++ [m])) : sem.Literal here item moves where
  keys m hm := h.keys m (List.mem_append_left _ hm)
  indexed done m' rest v heq := h.indexed done m' (rest ++ [m]) v (by simp [heq])

theorem readStep_eq (h : sem.Literal here item (moves ++ [m])) (hm : m.isHelper = false)
    (hv : sem.follow here moves item = some v) (hu : sem.move here m v = some u) :
    sem.readStep here m v = some u := by
  cases m with
  | property key =>
    have hkey := h.keys (.property key) (by simp) key (by simp [Move.keys])
    cases key with
    | name text => exact hu
    | string | computed => rw [readStep, hkey]; exact hu; simp
  | element index | remaining index => exact h.indexed moves _ [] v rfl hv u hu
  | others | default => cases hm

/-- A path without remaining properties reads what a script finds, unless a default is needed on the
way: then it breaks off, or what it reads is missing. -/
theorem readPath_eq_or (h : sem.Literal here item moves) (hmissing : sem.MissingFails)
    (hothers : ∀ keys, .others keys ∉ moves) (hv : sem.follow here moves item = some v) :
    sem.readPath here moves item = some v ∨
      (∃ rest, sem.Needs here item moves rest) ∧
        (sem.readPath here moves item = none ∨ sem.readPath here moves item = some sem.missing) := by
  induction moves using List.reverseRecOn generalizing v with
  | nil => exact .inl hv
  | append_singleton moves m ih =>
    rw [sem.follow_snoc] at hv
    obtain ⟨w, hw, hv⟩ := Option.bind_eq_some_iff.mp hv
    rw [readPath_snoc]
    rcases ih h.init (fun keys hkeys => hothers keys (by simp [hkeys])) hw with
      hread | ⟨⟨rest, done, e, rfl, hdone⟩, hread⟩
    · rw [hread, Option.bind_some]
      cases hm : m.isHelper with
      | false => exact .inl (h.readStep_eq hm hw hv)
      | true =>
        rw [readStep_of_isHelper hm]
        cases m with
        | default e =>
          by_cases hw' : w = sem.missing
          · exact .inr ⟨⟨[], moves, e, rfl, hw' ▸ hw⟩, .inr (congrArg some hw')⟩
          · rw [move, if_neg hw'] at hv
            exact .inl hv
        | others keys => exact absurd (by simp) (hothers keys)
        | property | element | remaining => cases hm
    · refine .inr ⟨⟨rest ++ [m], done, e, by simp, hdone⟩, ?_⟩
      rcases hread with hread | hread <;> rw [hread]
      · exact .inl rfl
      · rw [Option.bind_some]
        cases hm : m.isHelper with
        | false => exact .inl (readStep_missing hmissing hm)
        | true => exact .inr (readStep_of_isHelper hm _)

theorem readPath_eq_none (h : sem.Literal here item moves) (hmissing : sem.MissingFails)
    (hothers : ∀ done keys rest, moves = done ++ .others keys :: rest → rest = [])
    (hneeds : sem.Needs here item moves rest) (hrest : ∃ m ∈ rest, m.isHelper = false) :
    sem.readPath here moves item = none := by
  obtain ⟨done, e, rfl, hdone⟩ := hneeds
  have hbehind : sem.readPath here (.default e :: rest) sem.missing = none :=
    readPath_missing hmissing (by simpa [Move.isHelper] using hrest)
  have hdone' : sem.Literal here item done :=
    { keys := fun m hm => h.keys m (List.mem_append_left _ hm)
      indexed := fun first m last v heq =>
        h.indexed first m (last ++ .default e :: rest) v (by simp [heq]) }
  have hnone : ∀ keys, .others keys ∉ done := by
    intro keys hmem
    obtain ⟨first, last, rfl⟩ := List.append_of_mem hmem
    have := hothers first keys (last ++ .default e :: rest) (by simp)
    simp at this
  rw [readPath_append]
  rcases hdone'.readPath_eq_or hmissing hnone hdone with hread | ⟨-, hread | hread⟩
  · rw [hread, Option.bind_some, hbehind]
  · rw [hread, Option.bind_none]
  · rw [hread, Option.bind_some, hbehind]

end Literal

variable {outer : Scope V} {names : List String} {item : V} {w : Way} {b : String × V}

theorem Needs.default_mem {moves rest : List Move} (h : sem.Needs here item moves rest) (hrest : rest ≠ []) :
    ∃ e, .default e ∈ moves.dropLast := by
  obtain ⟨done, e, rfl, -⟩ := h
  exact ⟨e, by simp [List.dropLast_cons_of_ne_nil hrest]⟩

/-- If no default is needed before the end, the code reads what a name is bound to and then applies the
helper that is handed on from a pattern around the name. -/
theorem Leads.read_eq (h : sem.Leads outer here names item w b)
    (hplain : sem.Plain here outer names item w.moves) (hmissing : sem.MissingFails)
    (hneeds : ∀ rest ≠ [], ¬ sem.Needs here item w.moves rest) :
    sem.read here w item = sem.help here (Way.inherited? w.moves) b.2 := by
  obtain ⟨name, moves⟩ := w
  have hfollow := h.follow hplain.keeps
  simp only at hplain hneeds hfollow
  rcases List.eq_nil_or_concat moves with rfl | ⟨moves, m, rfl⟩
  · rw [← Option.some.inj hfollow]
    rfl
  rw [List.concat_eq_append] at hplain hneeds hfollow ⊢
  rw [sem.follow_snoc] at hfollow
  obtain ⟨v, hv, hu⟩ := Option.bind_eq_some_iff.mp hfollow
  have hothers : ∀ keys, .others keys ∉ moves := by
    intro keys hmem
    obtain ⟨first, last, rfl⟩ := List.append_of_mem hmem
    have := h.others_last first keys (last ++ [m]) (by simp)
    simp at this
  have hread : sem.readPath here moves item = some v := by
    rcases hplain.init.readPath_eq_or hmissing hothers hv with hread | ⟨⟨rest, done, e, rfl, hdone⟩, -⟩
    · exact hread
    · exact absurd ⟨done, e, by simp, hdone⟩ (hneeds (rest ++ [m]) (by simp))
  simp only [read, readPath_snoc, hread, Option.bind_some]
  cases hm : m.isHelper with
  | false =>
    rw [hplain.readStep_eq hm hv hu, Option.bind_some, Way.lastHelper?_snoc_of_not_isHelper moves hm,
      Way.inherited?_snoc moves hm]
  | true =>
    have hnone : Way.inherited? (moves ++ [m]) = none := by simp [Way.inherited?, hm]
    rw [readStep_of_isHelper hm, Option.bind_some, Way.lastHelper?_snoc_of_isHelper moves hm, hnone]
    cases m with
    | others keys =>
      have hkeys : keys.mapM (fun key => sem.evaluate here key.written) = keys.mapM (sem.key here) :=
        mapM_written (hplain.keys (.others keys) (by simp))
      rw [help, hkeys]
      exact hu
    | default e =>
      obtain ⟨d, hd⟩ := hplain.default e (Way.lastHelper?_snoc_of_isHelper moves rfl)
      rw [move, hd] at hu
      rw [help, hd, Option.map_some, help, ← hu, apply_ite some]
      · simp
      · simp
    | property | element | remaining => cases hm

end

/-- What the code reads for a name that is bound to a value. -/
structure ReadsAs (outer : Scope V) (names : List String) (item : V) (w : Way) (b : String × V) :
    Prop where
  name : w.name = b.1
  /-- If no default is needed before the end, the code reads the value, unless it is missing and the name
  has a default from a pattern around it. -/
  bound : sem.Plain here outer names item w.moves →
    (∀ rest ≠ [], ¬ sem.Needs here item w.moves rest) →
    (b.2 = sem.missing → Way.inherited? w.moves = none) → sem.read here w item = some b.2
  /-- For a missing value, the code reads the default of a pattern around it. -/
  inherited : sem.Plain here outer names item w.moves →
    (∀ rest ≠ [], ¬ sem.Needs here item w.moves rest) →
    ∀ e, Way.inherited? w.moves = some (.default e) → b.2 = sem.missing →
      sem.read here w item = sem.evaluate here e
  /-- If a default is needed and the path goes on behind it, the code throws. -/
  broken : sem.Plain here outer names item w.moves →
    ∀ rest, sem.Needs here item w.moves rest → (∃ m ∈ rest, m.isHelper = false) →
      sem.read here w item = none

variable {sem here} in
theorem Leads.readsAs {outer : Scope V} {item : V} {w : Way} {b : String × V}
    (h : sem.Leads outer here names item w b) (hmissing : sem.MissingFails) :
    sem.ReadsAs here outer names item w b where
  name := h.name
  bound := by
    intro hplain hneeds hinherited
    rw [h.read_eq hplain hmissing hneeds]
    rcases hm : Way.inherited? w.moves with _ | m
    · rfl
    have hthere : b.2 ≠ sem.missing := fun hb => by simp [hinherited hb] at hm
    obtain ⟨hlast, hm⟩ := Way.of_inherited? hm
    cases m with
    | default e =>
      obtain ⟨d, hd⟩ := hplain.default e hm
      rw [help, hd, Option.map_some, if_neg hthere]
    | others keys =>
      -- what remains of an object is the end of a way, so it is not handed on
      obtain ⟨first, last, heq⟩ := List.append_of_mem (Way.mem_of_lastHelper? hm).1
      obtain rfl := h.others_last first keys last heq
      simp [heq, Move.isHelper] at hlast
    | property | element | remaining => cases (Way.mem_of_lastHelper? hm).2
  inherited := by
    intro hplain hneeds e he hb
    rw [h.read_eq hplain hmissing hneeds, he, help]
    simp [hb]
  broken := by
    intro hplain rest hneeds hrest
    rw [read, hplain.readPath_eq_none hmissing h.others_last hneeds hrest, Option.bind_none]

end Script.Semantics

namespace Script.Value

theorem missingFails : semantics.MissingFails := ⟨fun _ => rfl, fun _ => rfl⟩

theorem get_of_step {v u : Value} {index : Nat} (h : v.step index = some u) :
    v.get (.number index) = some u := by
  induction v, index using step.induct with
  | case1 | case2 => exact h
  | case3 value rest index ih => exact ih h
  | case4 => simp_all [step]

theorem isIndexed (v : Value) (m : Move) : semantics.IsIndexed v m := by
  cases m with
  | element index => exact fun u hu => get_of_step hu
  | remaining index => exact fun u hu => hu
  | property | others | default => exact trivial

theorem evaluate_of_isSome {e : String} (h : (evaluate (fun _ => none) e).isSome) (scope : Scope Value) :
    evaluate scope e = evaluate (fun _ => none) e := by
  unfold evaluate at h ⊢
  split at h
  · rfl
  · rfl
  · cases h
  · cases h

theorem plain {here outer : Scope Value} {item : Value}
    (hkeys : ∀ m ∈ moves, ∀ key ∈ m.keys, semantics.evaluate here key.written = semantics.key here key)
    (hclosed : ∀ m ∈ moves, ∀ e ∈ m.expressions, (evaluate (fun _ => none) e).isSome) :
    semantics.Plain here outer names item moves where
  keys := hkeys
  indexed := fun _ m _ v _ _ => isIndexed v m
  keeps := by
    intro m hm e he scope _
    have hvalue := evaluate_of_isSome (hclosed m hm e he)
    exact (hvalue scope).trans (hvalue here).symm
  default := by
    intro e he
    have hvalue := hclosed _ (Way.mem_of_lastHelper? he).1 e (by simp [Move.expressions])
    obtain ⟨u, hu⟩ := Option.isSome_iff_exists.mp hvalue
    exact ⟨u, (evaluate_of_isSome hvalue here).trans hu⟩

theorem read_eq {here outer : Scope Value} {item : Value} {w : Way} {b : String × Value}
    (h : semantics.ReadsAs here outer names item w b)
    (hkeys : ∀ m ∈ w.moves, ∀ key ∈ m.keys, semantics.evaluate here key.written = semantics.key here key)
    (hclosed : ∀ m ∈ w.moves, ∀ e ∈ m.expressions, (evaluate (fun _ => none) e).isSome)
    (hdefault : ∀ e, .default e ∉ w.moves.dropLast) (hthere : b.2 ≠ .missing) :
    semantics.read here w item = some b.2 := by
  refine h.bound (plain hkeys hclosed) (fun rest hrest hneeds => ?_) (fun hb => absurd hb hthere)
  obtain ⟨e, he⟩ := hneeds.default_mem hrest
  exact hdefault e he

end Script.Value

/-- A loop brings one variable for each name of the pattern of its items, in the order of the source, and
what stands for it reads what a script binds the name to, where no default is needed before the end. -/
theorem item_names_read {V : Type} [DecidableEq V] (sem : Semantics V) (hmissing : sem.MissingFails)
    {pattern : Expression} {script : String} {t : Tree}
    (ht : Way.item? pattern.content = some (script, t)) :
    (Way.ofPattern script [] t).map Way.name = t.boundNames ∧
    (∀ (s : Emitter) (head : LoopHead), head.value = some pattern →
      (Emit.enterLoop head s).1.names =
        ("_for_item" ++ toString s.depth, none)
          :: (Way.ofPattern script [] t).map
            (fun w => (w.name, some (w.code ("_for_item" ++ toString s.depth))))
          ++ (Emit.LoopScope.ofName ("_for_key" ++ toString s.depth) (LoopHead.nameOf head.key)).names
          ++ (Emit.LoopScope.ofName ("_for_index" ++ toString s.depth) (LoopHead.nameOf head.index)).names) ∧
    ∀ outer here item bound, sem.destructure outer script t item = some bound →
      List.Forall₂ (sem.ReadsAs here outer t.boundNames item) (Way.ofPattern script [] t) bound := by
  refine ⟨(Way.names_eq script).1 [] t, ?_, ?_⟩
  · intro s head hvalue
    have hitem : head.itemBindings = (Way.ofPattern script [] t).map Way.binding := by
      rw [LoopHead.itemBindings, hvalue, Option.map_some, Option.getD_some, Way.ofItem_eq ht]
    rw [(Emit.yields_enterLoop s.scene head s rfl).1, LoopHead.scope, hitem, List.map_map]
    simp only [Function.comp_def, Way.code_binding]
    rfl
  · intro outer here item bound hbound
    exact (sem.leads_destructure hbound).imp fun w b h => h.readsAs hmissing

theorem item_names_read_nested :
    ∃ script t, Way.item? "\x7b user: \x7b name = 'x' \x7d, list: [, ...others], ...rest \x7d" =
        some (script, t) ∧
      Value.semantics.MissingFails ∧
      ∃ item bound, Value.semantics.destructure (fun _ => none) script t item = some bound ∧
        bound = [("name", .string "x"), ("others", .item (.number 2) .array),
          ("rest", .entry "id" (.number 3) .object)] ∧
        List.Forall₂ (fun w b => Value.semantics.read (fun _ => none) w item = some b.2)
          (Way.ofPattern script [] t) bound := by
  have hread : ∃ item : Value, ((Way.item?
      "\x7b user: \x7b name = 'x' \x7d, list: [, ...others], ...rest \x7d").any fun p =>
      Value.semantics.destructure (fun _ => none) p.1 p.2 item =
        some [("name", .string "x"), ("others", .item (.number 2) .array),
          ("rest", .entry "id" (.number 3) .object)] ∧
      Way.ofPattern p.1 [] p.2 =
        [⟨"name", [.property (.name "user"), .property (.name "name"), .default "'x'"]⟩,
          ⟨"others", [.property (.name "list"), .remaining 1]⟩,
          ⟨"rest", [.others [.name "user", .name "list"]]⟩]) = true :=
    ⟨.entry "id" (.number 3) (.entry "user" .object
      (.entry "list" (.item (.number 1) (.item (.number 2) .array)) .object)), by decide +kernel⟩
  obtain ⟨item, hread⟩ := hread
  obtain ⟨⟨script, t⟩, ht, hread⟩ := (Option.any_eq_true _ _).mp hread
  obtain ⟨hbound, hways⟩ := of_decide_eq_true hread
  refine ⟨script, t, ht, Value.missingFails, item, _, hbound, rfl, ?_⟩
  have hnames := (item_names_read Value.semantics Value.missingFails
    (show Way.item? (Expression.ofScript _).content = _ from ht)).2.2 _ (fun _ => none) _ _ hbound
  rw [hways] at hnames ⊢
  simp only [List.forall₂_cons, List.forall₂_nil_left_iff, and_true] at hnames ⊢
  obtain ⟨hname, hothers, hrest⟩ := hnames
  refine ⟨Value.read_eq hname ?_ ?_ (by simp) (by simp), Value.read_eq hothers ?_ ?_ (by simp) (by simp),
    Value.read_eq hrest ?_ ?_ (by simp) (by simp)⟩
  all_goals decide +kernel

theorem item_default_handed_on :
    ∃ script t w, Way.item? "\x7b a: \x7b b \x7d = \x7b\x7d \x7d" = some (script, t) ∧
      Way.ofPattern script [] t = [w] ∧
      w.code "_for_item0" = "_getDefaultValue(_for_item0.value.a.b, \x7b\x7d)" ∧
      (Value.semantics.destructure (fun _ => none) script t .object = some [("b", .missing)] ∧
        Value.semantics.read (fun _ => none) w .object = none) ∧
      (Value.semantics.destructure (fun _ => none) script t (.entry "a" .object .object) =
          some [("b", .missing)] ∧
        Value.semantics.read (fun _ => none) w (.entry "a" .object .object) = some .object) := by
  have hread : ((Way.item? "\x7b a: \x7b b \x7d = \x7b\x7d \x7d").any fun p =>
      Way.ofPattern p.1 [] p.2 =
        [⟨"b", [.property (.name "a"), .default "\x7b\x7d", .property (.name "b")]⟩] ∧
      Value.semantics.destructure (fun _ => none) p.1 p.2 .object = some [("b", .missing)] ∧
      Value.semantics.destructure (fun _ => none) p.1 p.2 (.entry "a" .object .object) =
        some [("b", .missing)]) = true := by decide +kernel
  obtain ⟨⟨script, t⟩, ht, hread⟩ := (Option.any_eq_true _ _).mp hread
  obtain ⟨hways, hempty, hthere⟩ := of_decide_eq_true hread
  exact ⟨script, t, _, ht, hways, by decide +kernel, ⟨hempty, by decide +kernel⟩, hthere,
    by decide +kernel⟩

end JsxTemplate
