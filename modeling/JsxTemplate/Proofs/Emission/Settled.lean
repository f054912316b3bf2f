import JsxTemplate.Proofs.Emission.Scene

/-!
# Statements without blocks

Everything that is written without entering a block is settled: it is the same in scenes that match, and
the scene is left as it was. Only listeners catch events. The code is flat, and it is level.
-/

namespace JsxTemplate

namespace Expression

open Script (Reference)

variable (e : Expression) (names : Renaming)

theorem isLevel_substitute (references : List Reference) (start stop : Nat) :
    (e.substitute names references start stop).1.IsLevel := by
  suffices h : ∀ last, (e.substituteFrom names start stop last references).1.IsLevel from h start
  induction references with
  | nil =>
    intro last
    rw [substituteFrom]
    dsimp only
    split <;> simp [piece]
  | cons r rs ih =>
    intro last
    rw [substituteFrom]
    split
    · exact ih last
    · split
      · refine .append ?_ (ih r.stop)
        split <;> simp [piece]
      · exact ih last

@[simp] theorem isLevel_code : (e.code names).IsLevel := by
  unfold code substituted?
  split
  · simp
  · split
    · simp
    · cases Script.references? e.content with
      | none => simp
      | some references =>
        simp only [Option.bind_some]
        split
        · simp
        · exact e.isLevel_substitute names references _ _

theorem isLevel_assignment (value : String) : (e.assignment names value).IsLevel := by
  unfold assignment
  split <;> simp

end Expression

def Listener.caught (l : Listener) : List String := if l.delegate then [l.key.content] else []

namespace Code

theorem IsLevel.getter {c : Code} (h : c.IsLevel) : (getter c).IsLevel := by simp [Code.getter, h]

theorem IsLevel.object {entries : List Code} (h : ∀ c ∈ entries, c.IsLevel) : (object entries).IsLevel :=
  .list _ h

end Code

namespace Emit

/-! ## Helpers, names and expressions -/

theorem yields_helper (σ : Scene) (name : String) : Yields (helper name) σ ("_" ++ name) [] σ := by
  refine .of_delegates_eq (fun s hs => ⟨rfl, ?_⟩) fun s => ?_
  · rw [← hs]
    change (if s.helpers.contains name then s else _).scene = s.scene
    split <;> rfl
  · change (if s.helpers.contains name then s else _).delegates = s.delegates
    split <;> rfl

theorem settled_helper (name : String) : Settled (fun _ => True) (helper name) := fun σ τ _ =>
  ⟨_, yields_helper σ name, yields_helper τ name, trivial⟩

theorem yields_delegate (σ : Scene) (event : String) : Yields (delegate event) σ ⟨⟩ [event] σ := by
  rintro s rfl
  refine ⟨rfl, ?_, ?_⟩
  · change (if s.delegates.contains event then s else _).scene = s.scene
    split <;> rfl
  · change Gathers s.delegates [event] (if s.delegates.contains event then s else _).delegates
    split
    · next h =>
      have hmem : event ∈ s.delegates := by simpa using h
      refine ⟨fun e => ?_, id⟩
      simp only [List.mem_singleton, iff_self_or]
      rintro rfl
      exact hmem
    · next h =>
      have hmem : event ∉ s.delegates := by simpa using h
      refine ⟨fun e => by simp, fun hnodup => ?_⟩
      refine List.nodup_append.mpr ⟨hnodup, by simp, ?_⟩
      rintro a ha _ hb rfl
      exact hmem (List.mem_singleton.mp hb ▸ ha)

theorem settled_currentBlock : Settled (fun _ => True) currentBlock :=
  .read (fun _ => trivial) fun _ _ h => congrArg (Option.map Prod.fst) h.current

theorem settled_expression (e : Expression) : Settled Code.IsLevel (expression e) :=
  .read (f := fun s => e.code s.names) (fun _ => e.isLevel_code _) fun _ _ h => e.code_congr h.names

theorem settled_expression? (e : Option Expression) :
    Settled (fun code => ∀ c ∈ code, c.IsLevel) (expression? e) := by
  cases e with
  | none => exact .pure (by simp)
  | some e => exact (settled_expression e).bind fun _ h => .pure (by simpa using h)

theorem settled_callHelper (name : String) {args : List (Option Code)}
    (h : ∀ a ∈ args, ∀ c ∈ a, c.IsLevel) : Settled Code.IsLevel (callHelper name args) :=
  (settled_helper name).bind fun _ _ => .pure (.call _ h)

theorem settled_statement (name : String) {args : List (Option Listing)}
    (h : ∀ a ∈ args, ∀ l ∈ a, l.Plain) : Settled Listing.Plain (statement name args) :=
  ((settled_helper name).bind fun _ _ => .pure (.callWithBlanks _ _ h)).bind fun _ hcall =>
    .pure (.cons rfl hcall)

theorem settled_wrapIf (wrap : Bool) (name : String) {code : Code} (h : code.IsLevel) :
    Settled Code.IsLevel (wrapIf wrap name code) :=
  .ite (settled_callHelper _ (by simpa using h)) (.pure h)

/-! ## Properties -/

theorem settled_propertyKey (p : Property) : Settled Code.IsLevel (propertyKey p) := by
  refine .ite (.pure (by simp)) <| (settled_expression _).bind fun _ h =>
    (settled_wrapIf _ _ h).bind fun _ h => (settled_wrapIf _ _ h).bind fun _ h => .pure ?_
  cases p.keyMark.isEmpty <;> cases p.keySuffix.isEmpty <;> simp [h]

theorem settled_propertyValue (values : List Expression) : Settled Code.IsLevel (propertyValue values) := by
  have hlist : ∀ values : List Expression, Settled Code.IsLevel
      (do let names ← names; return Code.list .array (values.map fun v => v.code names) : Emit Code) := by
    intro values
    refine .read (f := fun s => Code.list .array (values.map fun v => v.code s.names))
      (fun s => Code.IsLevel.list _ (by simp)) fun s t h => ?_
    have hvalues : (fun v : Expression => v.code s.names) = fun v => v.code t.names := by
      funext v
      exact v.code_congr h.names
    simp only [hvalues]
  rcases values with _ | ⟨value, _ | ⟨value', values⟩⟩
  · exact hlist []
  · exact settled_expression value
  · exact hlist (value :: value' :: values)

theorem settled_setProperty (element : Nat) (p : Property) (tag : String) :
    Settled Listing.Plain (setProperty element p tag) := by
  refine (settled_expression _).bind fun key hkey => (settled_propertyValue _).bind fun value hvalue => ?_
  refine settled_statement _ ?_
  cases (Setter.choose tag p.key.content p.modifier).takesKey <;>
    simp [Listing.plain_ofCode hkey, Listing.plain_ofCode hvalue]

theorem settled_objectEntry (p : Property) : Settled Code.IsLevel (objectEntry p) :=
  (settled_propertyKey p).bind fun _ hkey => (settled_propertyValue _).bind fun _ hvalue =>
    .pure (hkey.append hvalue)

theorem settled_groupObject (g : PropertyGroup) : Settled Code.IsLevel (groupObject g) := by
  cases g with
  | fixed ps => exact (Settled.mapM settled_objectEntry ps).bind fun _ h => .pure (.list _ h)
  | computed p => exact (settled_objectEntry p).bind fun _ h => .pure (.list _ (by simpa using h))
  | object value handler => exact settled_expression value

theorem settled_setProperties (element : Nat) (groups : List PropertyGroup) (tag : String) :
    Settled Listing.Plain (setProperties element groups tag) := by
  refine (Settled.mapM settled_groupObject groups).bind fun objects h => settled_statement _ ?_
  cases Html.isSvgTag (Text.lowercase tag) <;> simp [Listing.plain_ofCode (.list _ h)]

/-! ## Listeners -/

theorem settled_handlerBody (value : Option Expression) (extraWrap : Bool) :
    Settled Code.IsLevel (handlerBody value extraWrap) := by
  unfold handlerBody
  cases value.filter fun e => !e.isEmpty with
  | none => exact .pure (by simp)
  | some e =>
    refine (settled_expression e).bind fun code h => .ite (.pure ?_) <| .ite (.pure h) <|
      .ite (.pure (by simp [h])) (.pure h.getter)
    split <;> simp [h]

theorem settled_guarded (name : String) (guards : List String) {code : Code} (h : code.IsLevel) :
    Settled Code.IsLevel (guarded name guards code) :=
  .ite (.pure h) (settled_callHelper _ (by simpa using h))

theorem settled_handler (value : Option Expression) (modifiers : Option EventModifiers)
    (extraWrap : Bool) : Settled Code.IsLevel (handler value modifiers extraWrap) := by
  refine (settled_handlerBody _ _).bind fun _ h => (settled_guarded _ _ h).bind fun _ h =>
    (settled_guarded _ _ h).bind fun _ h => .pure ?_
  split <;> simp [h]

theorem settled_eventName (l : Listener) : Settled Code.IsLevel (eventName l) := by
  refine (settled_expression _).bind fun name h => ?_
  cases l.keyOverride with
  | none => exact .pure h
  | some _ => exact .pure (by simp [h])

theorem isLevel_listenerOptions (l : Listener) : ∀ c ∈ listenerOptions l, c.IsLevel := by
  intro c hc
  simp only [listenerOptions, Option.mem_def, Option.ite_none_left_eq_some, Option.some.injEq] at hc
  obtain ⟨-, rfl⟩ := hc
  refine .list _ fun c hc => ?_
  simp only [List.mem_append, List.mem_ite_nil_right, List.mem_singleton] at hc
  rcases hc with ((⟨-, rfl⟩ | ⟨-, rfl⟩) | ⟨-, rfl⟩) | ⟨-, rfl⟩ <;> simp

theorem settles_setEvent (l : Listener) : Settles (Listing.Flat l.caught) (setEvent l) l.caught := by
  have hcall : ∀ {name code : Code}, name.IsLevel → code.IsLevel → Settled Listing.Plain
      (statement (if l.delegate then "delegate" else "on")
        [some (.use (.node l.element)), some (.ofCode name), some (.ofCode code),
          (listenerOptions l).map .ofCode]) := by
    intro name code hname hcode
    refine settled_statement _ ?_
    have hoptions := fun c hc => Listing.plain_ofCode (isLevel_listenerOptions l c hc)
    simpa [Listing.plain_ofCode hname, Listing.plain_ofCode hcode] using hoptions
  change Settles _ (setEvent l) ([] ++ ([] ++ l.caught))
  refine Settles.bind (settled_eventName l) fun name hname =>
    Settles.bind (settled_handler _ _ _) fun code hcode => ?_
  have hcall := hcall hname hcode
  unfold Listener.caught
  cases hd : l.delegate <;> rw [hd] at hcall
  · exact settled_currentBlock.bind fun _ _ => hcall
  · have hcatch : Settles (fun _ => True) (delegate l.key.content) [l.key.content] := fun σ τ _ =>
      ⟨_, yields_delegate σ _, yields_delegate τ _, trivial⟩
    refine hcatch.bind fun _ _ => settled_currentBlock.bind fun block _ => .ite (.pure ?_) ?_
    · exact ⟨by simp, by simp, (Listing.plain_ofCode hcode).level⟩
    · exact hcall.bind fun _ h => .pure ⟨h.bodies, by simp, h.level⟩

theorem settled_setEvents (element : Nat) (value : Expression) :
    Settled Listing.Plain (setEvents element value) :=
  (settled_expression value).bind fun _ h => settled_statement _ (by simp [Listing.plain_ofCode h])

/-! ## Directives -/

theorem settled_modelHandler (e : Expression) : Settled Code.IsLevel (modelHandler e) :=
  .get (fun s => .pure (by simp [e.isLevel_assignment])) fun s t h => by
    have hcode : e.assignment s.names "_value" = e.assignment t.names "_value" :=
      e.assignment_congr h.names "_value"
    simp only [hcode]

theorem isLevel_modifierArgument (modifiers : List String) : ∀ c ∈ modifierArgument modifiers, c.IsLevel := by
  intro c hc
  simp only [modifierArgument, Option.mem_def, Option.ite_none_left_eq_some, Option.some.injEq] at hc
  obtain ⟨-, rfl⟩ := hc
  simp

theorem settled_builtinDirective (use : DirectiveUse) : Settled Listing.Plain (builtinDirective use) := by
  unfold builtinDirective
  cases use.builtin with
  | false => exact .pure .nil
  | true =>
    cases use.directive.exp with
    | none => exact .pure .nil
    | some e =>
      refine (settled_expression e).bind fun _ h => ?_
      have hvalue := Listing.plain_ofCode h.getter
      refine .ite (settled_statement _ (by simp [hvalue])) <| .ite ?_ (.pure .nil)
      refine (settled_modelHandler e).bind fun _ h => settled_statement _ ?_
      have hmodifiers := fun c hc =>
        Listing.plain_ofCode (isLevel_modifierArgument use.directive.modifiers c hc)
      simpa [hvalue, Listing.plain_ofCode h] using hmodifiers

theorem settled_directiveEntry (use : DirectiveUse) : Settled Code.IsLevel (directiveEntry use) := by
  refine (settled_expression _).bind fun _ hname => (settled_expression? _).bind fun _ hvalue =>
    (settled_expression? _).bind fun _ hargument => .pure (.listWithBlanks _ _ ?_)
  simpa [hname] using ⟨hvalue, hargument, isLevel_modifierArgument _⟩

theorem settled_directivesOf (id : Nat) : Settled Listing.Plain (directivesOf id) :=
  settled_currentBlock.bind fun _ _ => .ite (.pure .nil) <|
    (Settled.mapM settled_directiveEntry _).bind fun _ h =>
      settled_statement _ (by simp [Listing.plain_ofCode (.list _ h)])

/-! ## Components -/

theorem settled_modelEvent (p : Property) (value : Expression) :
    Settled Code.IsLevel (modelEvent p value) := by
  refine (settled_expression _).bind fun _ hkey => (settled_modelHandler _).bind fun _ h => .pure ?_
  cases p.key.isStatic <;> simp [hkey, h]

theorem settled_modelModifiers (p : Property) : Settled Code.IsLevel (modelModifiers p) := by
  refine .ite (.pure (by simp)) <| (settled_expression _).bind fun _ h => .pure ?_
  cases p.key.isStatic <;> simp [h]

theorem settled_modelEntries (p : Property) : Settled Code.IsLevel (modelEntries p) := by
  unfold modelEntries
  rcases p.model with _ | _ <;> rcases p.values with _ | ⟨value, values⟩
  · exact .pure (by simp)
  · exact .pure (by simp)
  · exact .pure (by simp)
  · exact (settled_modelEvent p value).bind fun _ h => (settled_modelModifiers p).bind fun _ h' =>
      .pure (h.append h')

theorem settled_componentValue (p : Property) (asGetter : Bool) :
    Settled Code.IsLevel (componentValue p asGetter) := by
  refine .ite (settled_handler _ _ _) <| (settled_propertyValue _).bind fun _ h => .pure ?_
  split
  · exact h.getter
  · exact h

theorem settled_componentEntry (asGetter : Bool) (p : Property) :
    Settled Code.IsLevel (componentEntry asGetter p) :=
  (settled_propertyKey p).bind fun _ hkey => (settled_componentValue p asGetter).bind fun _ hvalue =>
    (settled_modelEntries p).bind fun _ h => .pure (by simp [hkey, hvalue, h])

theorem settled_propertySource (g : PropertyGroup) :
    Settled (fun code => ∀ c ∈ code, c.IsLevel) (propertySource g) := by
  match g with
  | .fixed [] => exact .pure (by simp)
  | .fixed (p :: ps) =>
    exact (Settled.mapM (settled_componentEntry true) (p :: ps)).bind fun _ h =>
      .pure (by simpa using Code.IsLevel.object h)
  | .computed p =>
    refine (settled_componentEntry false p).bind fun entry h => .pure ?_
    have hentries : ∀ c ∈ [entry], c.IsLevel := by simpa using h
    simpa using (Code.IsLevel.list .object hentries).getter
  | .object value handler =>
    exact (settled_expression value).bind fun _ h => (settled_wrapIf _ _ h).bind fun _ h =>
      .pure (by simpa using h.getter)

theorem settled_propertyObject (fixed : List Property) (groups : List PropertyGroup) :
    Settled Code.IsLevel (propertyObject fixed groups) := by
  refine (Settled.mapM settled_propertySource groups).bind fun sources hsources =>
    (Settled.mapM (settled_componentEntry true) fixed).bind fun entries h => .pure (.object ?_)
  have hlist : ∀ c ∈ Code.propertySources (sources.filterMap id), c.IsLevel := by
    unfold Code.propertySources
    split
    · simp
    · have hitems : ∀ c ∈ sources.filterMap id, c.IsLevel := fun c hc => by
        obtain ⟨source, hsource, rfl⟩ := List.mem_filterMap.mp hc
        exact hsources _ hsource c rfl
      simpa using Code.IsLevel.list .arrayLines hitems
  exact fun c hc => (List.mem_append.mp hc).elim (h c) (hlist c)

theorem settled_componentProperties (groups : List PropertyGroup) :
    Settled (fun code => ∀ c ∈ code, c.IsLevel) (componentProperties groups) := by
  unfold componentProperties
  split
  · exact .pure (by simp)
  · exact .pure (by simp)
  · exact (settled_propertyObject _ _).bind fun _ h => .pure (by simpa using h)
  · exact (settled_propertyObject _ _).bind fun _ h => .pure (by simpa using h)

theorem settled_componentTag (tag : String) (dynamic : Option Expression) :
    Settled Code.IsLevel (componentTag tag dynamic) := by
  unfold componentTag
  cases dynamic with
  | none => exact settled_expression _
  | some e =>
    exact (settled_expression e).bind fun _ h => .ite (settled_callHelper _ (by simpa using h))
      (.pure h.getter)

/-! ## Nodes -/

theorem settled_textValue (e : Expression) : Settled Code.IsLevel (textValue e) := by
  unfold textValue
  cases e.literal? with
  | none => exact (settled_expression e).bind fun _ h => settled_callHelper _ (by simpa using h)
  | some text => exact .pure (by simp)

theorem settled_setText (element : Nat) (values : List Expression) (generated : Bool) :
    Settled Listing.Plain (setText element values generated) := by
  refine (Settled.mapM settled_textValue values).bind fun texts h => settled_statement _ ?_
  have hseparator : Code.IsLevel [.code " + "] := by simp
  have htexts := flatten_intersperse Code.isLevel_nil .append hseparator h
  simp [Listing.plain_ofCode htexts]

theorem settled_setHtml (element : Nat) (value : Expression) :
    Settled Listing.Plain (setHtml element value) :=
  (settled_expression value).bind fun _ h => settled_statement _ (by simp [Listing.plain_ofCode h])

theorem settled_setReference (element : Nat) (value : Expression) (inLoop effect : Bool) :
    Settled Listing.Plain (setReference element value inLoop effect) := by
  refine (settled_expression value).bind fun code h => .pure (.cons rfl (.append ?_ ?_))
  · cases effect
    · exact .nil
    · exact .cons rfl .nil
  · refine .callWithBlanks _ _ ?_
    cases inLoop <;> cases effect <;> simp [Listing.plain_ofCode h]

theorem settled_insertNodes (elements : List Nat) (into : Insertion) :
    Settled Listing.Plain (insertNodes elements into) :=
  (settled_helper _).bind fun _ _ => .pure (.cons rfl (.cons rfl .nil))

theorem settled_textChild (parent : Nat) : Settled Listing.Plain (textChild parent) :=
  (settled_helper _).bind fun _ _ => .pure (.cons rfl (.cons rfl .nil))

theorem settled_insertionState (into : Option Insertion) : Settled Listing.Plain (insertionState into) := by
  cases into with
  | none => exact .pure .nil
  | some into => exact (settled_helper _).bind fun _ _ => .pure (.cons rfl (.cons rfl .nil))

theorem settled_cloneNode (id template : Option Nat) : Settled Listing.Plain (cloneNode id template) := by
  unfold cloneNode
  cases id with
  | none => exact .pure .nil
  | some id =>
    cases template with
    | none => exact .pure .nil
    | some template => exact (settled_directivesOf id).bind fun _ h => .pure (.cons rfl (.cons rfl h))

theorem settled_referenceSetter (root : Bool) : Settled Listing.Plain (referenceSetter root) :=
  .get (fun _ => .ite ((settled_helper _).bind fun _ _ => .pure (.cons rfl (.cons rfl .nil))) (.pure .nil))
    fun s t h => by
      have hreference : s.hasReference = t.hasReference := h.hasReference
      simp only [hreference]

theorem settled_targetDirectives (target : Option Nat) :
    Settled Listing.Plain (targetDirectives target) := by
  cases target with
  | none => exact .pure .nil
  | some id => exact settled_directivesOf id

theorem settled_find (v : Variable) (route : Route) : Settled Listing.Plain (find v route) :=
  (Settled.mapM settled_helper _).bind fun _ _ => .pure (.cons rfl (.cons rfl .nil))

end Emit

end JsxTemplate
