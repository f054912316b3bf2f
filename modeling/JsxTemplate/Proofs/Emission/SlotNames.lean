import JsxTemplate.Proofs.Loop.Reading

/-!
# What the code reads for the names of a slot

A slot with a pattern is given one object, and the code reads each name of the pattern as the property
with that name. So only the names of the pattern matter. That gives what a script binds a name to if the
way to the name is the property with that name; of a longer way that begins there, the code takes the first
step (`Script.Semantics.Takes`). If the way begins elsewhere, the code reads something that the way does
not lead through (`Script.Value.misses_of_elsewhere`).
-/

namespace JsxTemplate

open Script (Key Semantics Scope Tree Value)

def Move.isDefault : Move → Bool
  | .default _ => true
  | _ => false

namespace Way

/-- What is written for a name of a slot. -/
def slotCode (parameter : String) (w : Way) : String := parameter ++ "[" ++ Text.quote w.name ++ "]"

/-- The steps behind a default of the whole pattern. -/
def steps (w : Way) : List Move := w.moves.dropWhile Move.isDefault

end Way

/-! ## What slots bring along -/

theorem slotScope_of_item? {pattern script : String} {t : Tree} (ht : Way.item? pattern = some (script, t))
    (depth : Nat) : Emit.SlotScope.ofPattern depth pattern =
      ⟨(Way.ofPattern script [] t).map
          fun w => (w.name, some (w.slotCode ("_slotProps" ++ toString depth))),
        some ("_slotProps" ++ toString depth), true⟩ := by
  rw [Emit.SlotScope.ofPattern, Way.ofItem_eq ht, List.map_map]
  rfl

theorem Way.item?_ne_empty {pattern : String} {p : String × Tree} (h : Way.item? pattern = some p) :
    pattern.isEmpty = false := by
  cases hempty : pattern.isEmpty with
  | false => rfl
  | true =>
    have hnone : Way.item? "" = none := by decide +kernel
    rw [String.isEmpty_iff.mp hempty, hnone] at h
    cases h

theorem enterSlot_of_item? {pattern : Expression} {script : String} {t : Tree}
    (ht : Way.item? (Text.trim pattern.content) = some (script, t))
    (hpattern : Text.isPlainName (Text.trim pattern.content) = false) (s : Emitter) :
    (Emit.enterSlot (some pattern) s).1 =
      ⟨(Way.ofPattern script [] t).map
          fun w => (w.name, some (w.slotCode ("_slotProps" ++ toString s.depth))),
        some ("_slotProps" ++ toString s.depth), true⟩ := by
  have hscope := (Emit.yields_enterSlot s.scene (some pattern) s rfl).1
  rw [hscope, Emit.SlotScope.of]
  simp only [Option.map_some, Option.getD_some, hpattern, Way.item?_ne_empty ht, Bool.false_eq_true,
    if_false]
  exact slotScope_of_item? ht s.depth

theorem enterSlot_of_isPlainName {pattern : Expression}
    (hpattern : Text.isPlainName (Text.trim pattern.content) = true) (s : Emitter) :
    (Emit.enterSlot (some pattern) s).1 =
      ⟨[(Text.trim pattern.content, none)], some (Text.trim pattern.content), false⟩ := by
  rw [(Emit.yields_enterSlot s.scene (some pattern) s rfl).1, Emit.SlotScope.of]
  simp only [Option.map_some, Option.getD_some, hpattern, if_true]

/-! ## What the code reads -/

namespace Script.Semantics

variable {V : Type} [DecidableEq V] (sem : Semantics V) (here : Scope V)

/-- What the code reads for a name of a slot, as it is written by `Way.slotCode`. -/
def readName (name : String) (props : V) : Option V :=
  (sem.evaluate here (Text.quote name)).bind (sem.get props)

variable {sem here}

theorem follow_steps {props : V} (hprops : props ≠ sem.missing) (w : Way) :
    sem.follow here w.moves props = sem.follow here w.steps props := by
  rw [Way.steps]
  induction w.moves with
  | nil => rfl
  | cons m moves ih =>
    cases m with
    | default e =>
      rw [List.dropWhile_cons_of_pos rfl, ← ih]
      simp [follow, move, hprops]
    | _ => rfl

variable (sem here)

/-- What the code reads for a name of a slot that is bound to a value, if the way to the name begins with
the property of that name: what is found by the first step. -/
def Takes (outer : Scope V) (names : List String) (props : V) (w : Way) (b : String × V) : Prop :=
  w.name = b.1 ∧
  ∀ key rest, w.steps = .property key :: rest → sem.key here key = some (sem.string w.name) →
    sem.evaluate here (Text.quote w.name) = some (sem.string w.name) →
    sem.KeepsMoves outer here names w.moves → props ≠ sem.missing →
      ∃ u, sem.readName here w.name props = some u ∧ sem.follow here rest u = some b.2

variable {sem here}

theorem Leads.takes {outer : Scope V} {names : List String} {props : V} {w : Way} {b : String × V}
    (h : sem.Leads outer here names props w b) : sem.Takes here outer names props w b := by
  refine ⟨h.name, fun key rest hsteps hkey hquote hkeeps hprops => ?_⟩
  have hfollow := h.follow hkeeps
  rw [follow_steps hprops, hsteps] at hfollow
  obtain ⟨u, hu, hrest⟩ := Option.bind_eq_some_iff.mp hfollow
  refine ⟨u, ?_, hrest⟩
  have hmove : sem.move here (.property key) props = sem.get props (sem.string w.name) :=
    congrArg (fun k => Option.bind k (sem.get props)) hkey
  rw [readName, hquote, Option.bind_some, ← hmove]
  exact hu

end Script.Semantics

/-! ## Ways that begin elsewhere -/

namespace Script.Value

/-- The value, with what stands under a name missing. -/
def hide (name : String) : Value → Value
  | .entry key value rest => .entry key (if key = name then .missing else value) (hide name rest)
  | v => v

variable {name : String} {v : Value}

theorem get_hide_of_ne {key : Value} (h : key ≠ .string name) : (v.hide name).get key = v.get key := by
  induction v with
  | entry k value rest _ ih =>
    rw [hide, get, get, ih]
    by_cases hk : key = .string k
    · have hne : k ≠ name := fun heq => h (heq ▸ hk)
      rw [if_neg hne]
    · rw [if_neg hk, if_neg hk]
  | _ => rfl

theorem get_hide (u : Value) (hu : u ≠ .missing) : (v.hide name).get (.string name) ≠ some u := by
  have hmissing : some Value.missing ≠ some u := fun h => hu (Option.some.inj h).symm
  induction v with
  | entry k value rest _ ih =>
    rw [hide, get]
    by_cases hk : k = name
    · rw [if_pos (congrArg _ hk.symm), if_pos hk]
      exact hmissing
    · rw [if_neg fun h => hk (Value.string.inj h).symm]
      exact ih
  | missing => exact fun h => by cases h
  | _ => exact hmissing

theorem get_of_isArray (h : v.isArray = true) : v.get (.string name) = some .missing := by
  cases v with
  | array | item => rfl
  | _ => cases h

theorem isArray_of_step {u : Value} {index : Nat} (h : v.step index = some u) : v.isArray = true := by
  cases v with
  | array | item => rfl
  | _ => cases h

theorem isArray_of_collect {u : Value} {index : Nat} (h : v.collect index = some u) : v.isArray = true := by
  cases v with
  | array | item => rfl
  | _ => cases h

theorem without_ne_missing {u : Value} {keys : List Value} (h : v.without keys = some u) :
    u ≠ .missing := by
  induction v generalizing u with
  | entry k value rest _ ih =>
    rw [without] at h
    split at h
    · exact ih h
    · obtain ⟨r, -, rfl⟩ := Option.map_eq_some_iff.mp h
      simp
  | missing => cases h
  | _ =>
    obtain rfl := Option.some.inj h
    simp

theorem without_hide {u : Value} {keys : List Value} (h : v.without keys = some u) :
    ∃ u', (v.hide name).without keys = some u' := by
  induction v generalizing u with
  | entry k value rest _ ih =>
    rw [without] at h
    rw [hide, without]
    split at h
    · next hk =>
      rw [if_pos hk]
      exact ih h
    · next hk =>
      obtain ⟨r, hr, -⟩ := Option.map_eq_some_iff.mp h
      obtain ⟨r', hr'⟩ := ih hr
      rw [if_neg hk, hr']
      exact ⟨_, rfl⟩
  | _ => exact ⟨u, h⟩

theorem hide_ne_missing (h : v ≠ .missing) : v.hide name ≠ .missing := by
  cases v with
  | missing => exact absurd rfl h
  | _ => simp [hide]

/-- Whether what the code reads for a name is not what the way leads to, for some value that the way leads
through. -/
def Misses (here : Scope Value) (w : Way) : Prop :=
  ∃ props u, props ≠ .missing ∧ semantics.follow here w.moves props = some u ∧
    semantics.readName here w.name props ≠ some u

theorem misses_of_elsewhere {here : Scope Value} {w : Way} {props u : Value}
    (hquote : semantics.evaluate here (Text.quote w.name) = some (.string w.name))
    (helsewhere : ∀ key rest, w.steps = .property key :: rest →
      semantics.key here key ≠ some (.string w.name))
    (hothers : ∀ keys rest, w.steps = .others keys :: rest → rest = [])
    (hprops : props ≠ .missing) (hfollow : semantics.follow here w.moves props = some u)
    (hu : u ≠ .missing) : Misses here w := by
  rw [Semantics.follow_steps hprops] at hfollow
  suffices h : ∃ props' u', props' ≠ .missing ∧ semantics.follow here w.steps props' = some u' ∧
      props'.get (.string w.name) ≠ some u' by
    obtain ⟨props', u', hprops', hfollow', hget⟩ := h
    refine ⟨props', u', hprops', (Semantics.follow_steps hprops' w).trans hfollow', ?_⟩
    rwa [Semantics.readName, hquote, Option.bind_some]
  rcases hsteps : w.steps with _ | ⟨m, rest⟩
  · exact ⟨.object, .object, by simp, rfl, by simp [get]⟩
  rw [hsteps] at hfollow
  obtain ⟨first, hfirst, hrest⟩ := Option.bind_eq_some_iff.mp hfollow
  cases m with
  | property key =>
    obtain ⟨k, hk, hfirst⟩ := Option.bind_eq_some_iff.mp hfirst
    have hne : k ≠ .string w.name := fun h => helsewhere key rest hsteps (h ▸ hk)
    refine ⟨props.hide w.name, u, hide_ne_missing hprops, ?_, get_hide u hu⟩
    refine Option.bind_eq_some_iff.mpr ⟨first, ?_, hrest⟩
    exact Option.bind_eq_some_iff.mpr ⟨k, hk, (get_hide_of_ne hne).trans hfirst⟩
  | element index =>
    refine ⟨props, u, hprops, hfollow, ?_⟩
    rw [get_of_isArray (isArray_of_step hfirst)]
    exact fun h => hu (Option.some.inj h).symm
  | remaining index =>
    refine ⟨props, u, hprops, hfollow, ?_⟩
    rw [get_of_isArray (isArray_of_collect hfirst)]
    exact fun h => hu (Option.some.inj h).symm
  | others keys =>
    obtain rfl := hothers keys rest hsteps
    obtain ⟨ks, hks, hfirst⟩ := Option.bind_eq_some_iff.mp hfirst
    obtain ⟨first', hfirst'⟩ := without_hide hfirst
    refine ⟨props.hide w.name, first', hide_ne_missing hprops, ?_, get_hide _ (without_ne_missing hfirst')⟩
    exact Option.bind_eq_some_iff.mpr
      ⟨first', Option.bind_eq_some_iff.mpr ⟨ks, hks, hfirst'⟩, rfl⟩
  | default e =>
    have hnot := List.head?_dropWhile_not Move.isDefault w.moves
    rw [show w.moves.dropWhile Move.isDefault = .default e :: rest from hsteps] at hnot
    simp [Move.isDefault] at hnot

end Script.Value

/-- A slot brings one variable for each name of its pattern, in the order of the source, and the code reads
it as the property with that name. That is what a script binds the name to, or what the further steps to it
start from, if the way to the name begins at that property, and is missed otherwise. A plain name is the
parameter itself. -/
theorem slot_names_read {V : Type} [DecidableEq V] (sem : Semantics V) {pattern : Expression}
    {script : String} {t : Tree} (ht : Way.item? (Text.trim pattern.content) = some (script, t)) :
    (Way.ofPattern script [] t).map Way.name = t.boundNames ∧
    (∀ s : Emitter, (Emit.enterSlot (some pattern) s).1 =
      if Text.isPlainName (Text.trim pattern.content) then
        ⟨[(Text.trim pattern.content, none)], some (Text.trim pattern.content), false⟩
      else
        ⟨(Way.ofPattern script [] t).map
            fun w => (w.name, some (w.slotCode ("_slotProps" ++ toString s.depth))),
          some ("_slotProps" ++ toString s.depth), true⟩) ∧
    (∀ outer here props bound, sem.destructure outer script t props = some bound →
      List.Forall₂ (sem.Takes here outer t.boundNames props) (Way.ofPattern script [] t) bound) ∧
    ∀ outer here props bound, Value.semantics.destructure outer script t props = some bound →
      props ≠ .missing → List.Forall₂ (fun w b =>
        Value.semantics.KeepsMoves outer here t.boundNames w.moves →
        Value.semantics.evaluate here (Text.quote w.name) = some (.string w.name) →
        (∀ key rest, w.steps = .property key :: rest →
          Value.semantics.key here key ≠ some (.string w.name)) →
        b.2 ≠ .missing → Value.Misses here w) (Way.ofPattern script [] t) bound := by
  refine ⟨(Way.names_eq script).1 [] t, fun s => ?_, ?_, ?_⟩
  · cases hpattern : Text.isPlainName (Text.trim pattern.content) with
    | true => exact enterSlot_of_isPlainName hpattern s
    | false => exact enterSlot_of_item? ht hpattern s
  · intro outer here props bound hbound
    exact (sem.leads_destructure hbound).imp fun w b h => h.takes
  · intro outer here props bound hbound hprops
    have hleads : List.Forall₂ (Value.semantics.Leads outer here t.boundNames props) _ bound :=
      Value.semantics.leads_destructure hbound
    refine hleads.imp fun w b h hkeeps hquote helsewhere hb => ?_
    refine Value.misses_of_elsewhere hquote helsewhere (fun keys rest hsteps => ?_) hprops
      (h.follow hkeeps) hb
    obtain ⟨defaults, hmoves⟩ := List.dropWhile_suffix (l := w.moves) Move.isDefault
    exact h.others_last defaults keys rest (by rw [← hmoves]; exact congrArg _ hsteps)

theorem slot_names_read_renamed :
    ∃ script t, Way.item? (Text.trim "\x7b b, a: c \x7d") = some (script, t) ∧
      ∃ props bound, Value.semantics.destructure (fun _ => none) script t props = some bound ∧
        bound = [("b", .string "y"), ("c", .string "x")] ∧
        Value.semantics.readName (fun _ => none) "b" props = some (.string "y") ∧
        Value.Misses (fun _ => none) ⟨"c", [.property (.name "a")]⟩ := by
  have hread : ∃ props : Value, props ≠ .missing ∧ ((Way.item? (Text.trim "\x7b b, a: c \x7d")).any fun p =>
      Value.semantics.destructure (fun _ => none) p.1 p.2 props =
        some [("b", .string "y"), ("c", .string "x")] ∧
      Way.ofPattern p.1 [] p.2 = [⟨"b", [.property (.name "b")]⟩, ⟨"c", [.property (.name "a")]⟩]) = true :=
    ⟨.entry "a" (.string "x") (.entry "b" (.string "y") .object), by simp, by decide +kernel⟩
  obtain ⟨props, hprops, hread⟩ := hread
  obtain ⟨⟨script, t⟩, ht, hread⟩ := (Option.any_eq_true _ _).mp hread
  obtain ⟨hbound, hways⟩ := of_decide_eq_true hread
  obtain ⟨-, -, htakes, hmisses⟩ := slot_names_read Value.semantics
    (show Way.item? (Text.trim (Expression.ofScript _).content) = _ from ht)
  have htakes := htakes _ (fun _ => none) props _ hbound
  have hmisses := hmisses _ (fun _ => none) props _ hbound hprops
  rw [hways] at htakes hmisses
  simp only [List.forall₂_cons, List.forall₂_nil_left_iff, and_true] at htakes hmisses
  have hkeeps : ∀ name, Value.semantics.KeepsMoves (fun _ => none) (fun _ => none) t.boundNames
      [.property (.name name)] := fun name => by simp [Semantics.KeepsMoves, Move.expressions, Key.expressions]
  refine ⟨script, t, ht, props, _, hbound, rfl, ?_, ?_⟩
  · obtain ⟨u, hu, hrest⟩ := htakes.1.2 (.name "b") [] rfl rfl (by decide +kernel) (hkeeps "b") hprops
    rw [hu, ← hrest]
    rfl
  · refine hmisses.2 (hkeeps "a") (by decide +kernel) (fun key rest hsteps => ?_) (by simp)
    obtain ⟨rfl, -⟩ : key = .name "a" ∧ rest = [] := by simpa [Way.steps, Move.isDefault, eq_comm] using hsteps
    decide +kernel

theorem slot_key_ignored :
    ∃ script t w, Way.item? "\x7b a: b \x7d" = some (script, t) ∧ Way.ofPattern script [] t = [w] ∧
      w.slotCode "_slotProps0" = "_slotProps0[\"b\"]" ∧ w.code "_for_item0" = "_for_item0.value.a" ∧
      ∃ props, Value.semantics.destructure (fun _ => none) script t props = some [("b", .string "x")] ∧
        Value.semantics.read (fun _ => none) w props = some (.string "x") ∧
        Value.semantics.readName (fun _ => none) w.name props = some .missing := by
  have hread : ((Way.item? "\x7b a: b \x7d").any fun p =>
      Way.ofPattern p.1 [] p.2 = [⟨"b", [.property (.name "a")]⟩] ∧
      Value.semantics.destructure (fun _ => none) p.1 p.2 (.entry "a" (.string "x") .object) =
        some [("b", .string "x")]) = true := by decide +kernel
  obtain ⟨⟨script, t⟩, ht, hread⟩ := (Option.any_eq_true _ _).mp hread
  obtain ⟨hways, hbound⟩ := of_decide_eq_true hread
  exact ⟨script, t, _, ht, hways, by decide +kernel, by decide +kernel, _, hbound, by decide +kernel,
    by decide +kernel⟩

end JsxTemplate
