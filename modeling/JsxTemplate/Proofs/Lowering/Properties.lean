import JsxTemplate.Proofs.Lowering.Keys
import JsxTemplate.Proofs.Lowering.Views

/-!
# The properties of an element

Which properties an element of the document has depends on its tag alone (`Tag.properties`), and so do the
operations that set those of them that cannot be part of the markup (`Tag.settings`). When the element is
finished, these operations are put at the place in the block that was noted when the walk came to the
element; what its directives add comes at the end.
-/

namespace JsxTemplate

/-! ## Properties as they are written -/

/-- What one item of the tag of an element adds to its properties. -/
def TagItem.gather (tag : Tag) (draft : PropertyDraft) : TagItem → PropertyDraft
  | .spread e _ => draft.addObject e false
  | .attribute a =>
    let d := Directive.ofAttribute a false
    if d.name != "bind" then draft
    else if d.arg.isNone then d.exp.elim draft fun e => draft.addObject e false
    else if tag.name == "component" && d.staticArg? == some "is" then draft
    else (d.boundProperty? tag).elim draft (draft.add false)

/-- The properties of an element of the document. -/
def Tag.properties (tag : Tag) : Properties :=
  (tag.items.foldl (TagItem.gather tag) ⟨[], [], []⟩).finish

/-- The properties that are not part of the markup, given the keys of those before them that are not. -/
def Property.unfolded : (dynamicKeys : List String) → List Property → List Property
  | _, [] => []
  | dynamicKeys, p :: ps =>
    if p.isFoldable dynamicKeys then unfolded dynamicKeys ps
    else p :: unfolded (dynamicKeys ++ [p.key.content]) ps

/-- An operation that sets properties, with the expressions that it reads. -/
structure Setting where
  expressions : List Expression
  operation : Operation

/-- Whether a setting is carried out again when an expression changes. -/
def Setting.isReactive (once : Bool) (s : Setting) : Bool :=
  !once && !(Lower.changing s.expressions).isEmpty

def Setting.effect (s : Setting) : Effect := ⟨Lower.changing s.expressions, [s.operation]⟩

def Tag.settings (tag : Tag) (element : Nat) : List Setting :=
  match tag.properties with
  | .grouped groups expressions => [⟨expressions, .setProperties element groups tag.name⟩]
  | .fixed properties =>
    (Property.unfolded [] properties).map fun p => ⟨p.values, .setProperty element p tag.name⟩

/-! ## Keys -/

/-- The property that one item of the tag of an element stands for. -/
def TagItem.property? (tag : Tag) : TagItem → Option Property
  | .spread _ _ => none
  | .attribute a =>
    let d := Directive.ofAttribute a false
    if d.name != "bind" || d.arg.isNone || (tag.name == "component" && d.staticArg? == some "is") then none
    else d.boundProperty? tag

def Property.keys (ps : List Property) : List String := ps.map fun p => p.key.content

def Tag.keys (tag : Tag) : List String :=
  (Property.keys (tag.items.filterMap (TagItem.property? tag))).eraseDups

def Setting.key? (s : Setting) : Option String :=
  match s.operation with
  | .setProperty _ p _ => some p.key.content
  | _ => none

theorem Property.keys_unique {ps : List Property} (h : ∀ p ∈ ps, p.key.isStatic = true) :
    keys (unique ps) = (keys ps).eraseDups ∧ ∀ q ∈ unique ps, q.key.isStatic = true := by
  have hkept : keys (unique ps) = keys (kept ps) := by
    rw [unique_eq, keys, List.map_map]
    rfl
  refine ⟨hkept.trans ?_, fun q hq => ?_⟩
  · clear hkept
    induction ps using List.reverseRecOn with
    | nil => rfl
    | append_singleton ps p ih =>
      have hps : ∀ q ∈ ps, q.key.isStatic = true := fun q hq => h q (List.mem_append_left _ hq)
      have hany : ps.any (sameKey · p) = true ↔ p.key.content ∈ keys ps := by
        simp only [List.any_eq_true, sameKey_iff, h p (by simp), true_and, keys, List.mem_map]
        exact exists_congr fun q => and_congr_right fun hq => by simp [hps q hq]
      have hall : keys (ps ++ [p]) = keys ps ++ [p.key.content] := by simp [keys]
      rw [kept_append, keys, List.map_append, ← keys, ih hps, hall, List.eraseDups_append]
      congr 1
      by_cases hmem : p.key.content ∈ keys ps
      · simp [List.removeAll, hmem, hany.mpr hmem]
      · rw [if_neg (mt hany.mp hmem), List.removeAll, List.filter_cons_of_pos (by simpa using hmem)]
        rfl
  · rw [unique_eq] at hq
    obtain ⟨p, hp, rfl⟩ := List.mem_map.mp hq
    exact h p ((kept_sublist ps).subset hp)

theorem TagItem.gather_cases (tag : Tag) (draft : PropertyDraft) (item : TagItem) :
    (gather tag draft item).groups ≠ [] ∨
      ((gather tag draft item).groups = draft.groups ∧
        (gather tag draft item).last = draft.last ++ (property? tag item).toList) := by
  have hobject : ∀ e, (draft.addObject e false).groups ≠ [] := by simp [PropertyDraft.addObject]
  rcases item with a | ⟨e, loc⟩
  · simp only [gather, property?]
    by_cases hname : (Directive.ofAttribute a false).name != "bind"
    · simp [hname]
    · cases (Directive.ofAttribute a false).arg with
      | none =>
        simp only [hname]
        cases (Directive.ofAttribute a false).exp with
        | none => simp
        | some e => exact Or.inl (hobject e)
      | some arg =>
        refine Or.inr ?_
        simp only [hname, Option.isNone_some, Bool.or_false, Bool.false_eq_true, if_false, Bool.false_or]
        split
        · simp
        · cases (Directive.ofAttribute a false).boundProperty? tag with
          | none => simp
          | some p => simp [PropertyDraft.add]
  · exact Or.inl (hobject e)

theorem TagItem.foldl_gather {tag : Tag} {items : List TagItem} {draft : PropertyDraft}
    (h : (items.foldl (gather tag) draft).groups = []) : draft.groups = [] ∧
      (items.foldl (gather tag) draft).last = draft.last ++ items.filterMap (property? tag) := by
  induction items generalizing draft with
  | nil => exact ⟨h, by simp⟩
  | cons item items ih =>
    obtain ⟨hgroups, hlast⟩ := @ih (gather tag draft item) h
    rcases gather_cases tag draft item with hsome | ⟨hsame, hadd⟩
    · exact absurd hgroups hsome
    · refine ⟨hsame ▸ hgroups, ?_⟩
      rw [List.foldl_cons, hlast, hadd, List.append_assoc]
      cases hp : property? tag item with
      | none => simp [hp]
      | some p => simp [hp]

theorem Tag.keys_of_properties {tag : Tag} {ps : List Property} (h : tag.properties = .fixed ps) :
    Property.keys ps = tag.keys := by
  unfold properties PropertyDraft.finish at h
  split at h
  · cases h
  · next hfixed =>
    simp only [Bool.or_eq_true, Bool.not_eq_true', List.isEmpty_eq_false_iff, List.any_eq_true, not_or,
      not_exists, not_and, ne_eq, not_not] at hfixed
    obtain ⟨hgroups, hstatic⟩ := hfixed
    obtain ⟨-, hlast⟩ := TagItem.foldl_gather hgroups
    obtain rfl := Properties.fixed.inj h
    rw [(Property.keys_unique fun p hp => by simpa using hstatic p hp).1, hlast]
    rfl

theorem Property.unfolded_sublist (dynamicKeys : List String) (ps : List Property) :
    (unfolded dynamicKeys ps).Sublist ps := by
  induction ps generalizing dynamicKeys with
  | nil => exact .refl _
  | cons p ps ih =>
    rw [unfolded]
    split
    · exact (ih _).cons _
    · exact (ih _).cons_cons _

theorem Tag.keys_settings (tag : Tag) (element : Nat) :
    ((tag.settings element).filterMap Setting.key?).Sublist tag.keys := by
  unfold settings
  split
  · exact List.nil_sublist _
  · next ps hps =>
    have hkeys : ((Property.unfolded [] ps).map fun p =>
        (⟨p.values, .setProperty element p tag.name⟩ : Setting)).filterMap Setting.key? =
        Property.keys (Property.unfolded [] ps) := by
      rw [List.filterMap_map]
      exact List.filterMap_eq_map.symm ▸ rfl
    rw [hkeys, ← keys_of_properties hps]
    exact (Property.unfolded_sublist [] ps).map _

/-- An element of the document whose properties are set: its number, where it stands in the template, and
whether it is rendered only once. -/
structure Owner where
  number : Nat
  path : Path
  tag : Tag
  once : Bool

def Owner.effects (w : Owner) : List Effect :=
  ((w.tag.settings w.number).filter fun s => s.isReactive w.once).map Setting.effect

def Owner.operations (w : Owner) : List Operation :=
  ((w.tag.settings w.number).filter fun s => !s.isReactive w.once).map Setting.operation

/-! ## Lists that are written in the middle -/

/-- Whether a list starts with `front`, has a middle that ends at the index, and goes on with `back` and an
end. Of what `p` selects, the middle has `done` and the end nothing. -/
def WrittenAt {α : Type} (p : α → Bool) (front back done items : List α) (index : Option Nat) : Prop :=
  ∃ middle rest, items = front ++ middle ++ (back ++ rest) ∧ index = some (front.length + middle.length) ∧
    middle.filter p = done ∧ rest.filter p = []

namespace WrittenAt

variable {α : Type} {p : α → Bool} {front back done items : List α} {index : Option Nat}

theorem start (p : α → Bool) (front back : List α) :
    WrittenAt p front back [] (front ++ back) (some front.length) :=
  ⟨[], [], by simp, by simp, rfl, rfl⟩

theorem not_isBehind (h : WrittenAt p front back done items index) : Lower.isBehind items index = false := by
  obtain ⟨middle, rest, rfl, rfl, -, -⟩ := h
  simp [Lower.isBehind]

theorem insert (h : WrittenAt p front back done items index) (x : α) :
    WrittenAt p front back (done ++ [x].filter p) (Lower.insertAt items x index).1
      (Lower.insertAt items x index).2 := by
  obtain ⟨middle, rest, rfl, rfl, hmiddle, hrest⟩ := h
  have hlength : front.length + middle.length = (front ++ middle).length := by simp
  refine ⟨middle ++ [x], rest, ?_, ?_, by rw [List.filter_append, hmiddle], hrest⟩
  · rw [Lower.insertAt, hlength, List.take_left, List.drop_left]
    simp
  · simp [Lower.insertAt]
    omega

theorem append (h : WrittenAt p front back done items index) {more : List α} (hmore : ∀ x ∈ more, p x = false) :
    WrittenAt p front back done (items ++ more) index := by
  obtain ⟨middle, rest, rfl, rfl, hmiddle, hrest⟩ := h
  refine ⟨middle, rest ++ more, by simp, rfl, hmiddle, ?_⟩
  rw [List.filter_append, hrest, List.nil_append, List.filter_eq_nil_iff]
  exact fun x hx => by simp [hmore x hx]

theorem split (h : WrittenAt p front back done items index) :
    ∃ added, items = front ++ added ∧ added.filter p = done ++ back.filter p := by
  obtain ⟨middle, rest, rfl, -, rfl, hrest⟩ := h
  exact ⟨middle ++ (back ++ rest), by simp, by simp [hrest]⟩

end WrittenAt

/-- Whether settings were put where the block ended in the state `start`, of which `back` is what had been
added in the meantime. -/
structure Writing (front back : View) (start : Context) (done : List Setting) (cursor : Lower.Cursor)
    (c : Context) : Prop extends Undisturbed start c where
  once : c.frame.once = start.frame.once
  outlines : c.frame.outlines = start.frame.outlines
  saved : c.saved.map SavedBlock.view = start.saved.map SavedBlock.view
  effects : WrittenAt Effect.isProperty front.effects back.effects
    ((done.filter fun s => s.isReactive start.frame.once).map Setting.effect) c.block.effects cursor.effect
  operations : WrittenAt Operation.isProperty front.operations back.operations
    ((done.filter fun s => !s.isReactive start.frame.once).map Setting.operation) c.block.operations
    cursor.operation

namespace Writing

open Lower

variable {front back : View} {start c c' : Context} {done : List Setting} {cursor : Cursor}

theorem start_of_view (h : c.view = front.append back) :
    Writing front back c [] ⟨some front.effects.length, some front.operations.length⟩ c := by
  have heffects : c.block.effects = front.effects ++ back.effects := congrArg View.effects h
  have hoperations : c.block.operations = front.operations ++ back.operations := congrArg View.operations h
  refine ⟨.refl c, rfl, rfl, rfl, ?_, ?_⟩
  · rw [heffects]
    exact .start _ _ _
  · rw [hoperations]
    exact .start _ _ _

theorem work (h : Writing front back start done cursor c) (honce : c'.frame.once = c.frame.once)
    {added : View} (hext : Extends added c c') (hwork : added.IsWork) :
    Writing front back start done cursor c' where
  toUndisturbed := h.toUndisturbed.trans hext.toUndisturbed
  once := honce.trans h.once
  outlines := by
    have hview : c'.frame.outlines = c.frame.outlines ++ added.outlines := congrArg View.outlines hext.view
    rw [hview, hwork.outlines, List.append_nil, h.outlines]
  saved := hext.saved.trans h.saved
  effects := by
    have hview : c'.block.effects = c.block.effects ++ added.effects := congrArg View.effects hext.view
    rw [hview]
    exact h.effects.append hwork.effects
  operations := by
    have hview : c'.block.operations = c.block.operations ++ added.operations :=
      congrArg View.operations hext.view
    rw [hview]
    exact h.operations.append hwork.operations

theorem does (h : Writing front back start done cursor c) {α : Type} {x : Lower α} {deeds : List Deed}
    (hx : Does deeds x) (hd : deeds.all (fun d => d.isWork && d != .once) = true) :
    Writing front back start done cursor (x c).2 := by
  simp only [List.all_eq_true, Bool.and_eq_true, bne_iff_ne] at hd
  obtain ⟨added, hext, hwork⟩ := hx.working (List.all_eq_true.mpr fun d hmem => (hd d hmem).1) c
  exact h.work (hx.once (fun hmem => (hd _ hmem).2 rfl) c) hext hwork

theorem reference (h : Writing front back start done cursor c) :
    Writing front back start done cursor (reference c).2 := h.does does_reference rfl

theorem registerEffect (h : Writing front back start done cursor c) (s : Setting) :
    Writing front back start (done ++ [s].filter fun s => s.operation.isProperty)
      (registerEffect s.expressions s.operation cursor c).1
      (registerEffect s.expressions s.operation cursor c).2 := by
  rcases silent_or_lively c s.expressions with hs | ⟨honce, hne⟩
  · have hsilent : s.isReactive start.frame.once = false := by
      rw [← h.once]
      rcases hs with hs | hs <;> simp [Setting.isReactive, hs]
    have hselect : ∀ q, ([s].filter q).filter (fun s => s.isReactive start.frame.once) = [] ∧
        ([s].filter q).filter (fun s => !s.isReactive start.frame.once) = [s].filter q := by
      intro q
      cases hq : q s <;> simp [hq, hsilent]
    have hinsert := h.operations.insert s.operation
    have hoperation : [s.operation].filter Operation.isProperty =
        ([s].filter fun s => s.operation.isProperty).map Setting.operation := by
      cases hp : s.operation.isProperty <;> simp [hp]
    rw [hoperation] at hinsert
    rw [registerEffect_of_silent hs]
    refine ⟨⟨h.around, ?_⟩, h.once, h.outlines, h.saved, ?_, ?_⟩
    · show (c.overrun || isBehind c.block.operations cursor.operation) = start.overrun
      rw [h.operations.not_isBehind, Bool.or_false]
      exact h.overrun
    · rw [List.filter_append, (hselect _).1, List.append_nil]
      exact h.effects
    · rw [List.filter_append, (hselect _).2, List.map_append]
      exact hinsert
  · have hlively : s.isReactive start.frame.once = true := by
      rw [← h.once, honce]
      simpa [Setting.isReactive] using hne
    have hselect : ∀ q, ([s].filter q).filter (fun s => s.isReactive start.frame.once) = [s].filter q ∧
        ([s].filter q).filter (fun s => !s.isReactive start.frame.once) = [] := by
      intro q
      cases hq : q s <;> simp [hq, hlively]
    have hinsert := h.effects.insert s.effect
    have heffect : [s.effect].filter Effect.isProperty =
        ([s].filter fun s => s.operation.isProperty).map Setting.effect := by
      cases hp : s.operation.isProperty <;> simp [Effect.isProperty, Setting.effect, hp]
    rw [heffect] at hinsert
    rw [registerEffect_of_lively honce hne]
    refine ⟨⟨h.around, ?_⟩, h.once, h.outlines, h.saved, ?_, ?_⟩
    · show (c.overrun || isBehind c.block.effects cursor.effect) = start.overrun
      rw [h.effects.not_isBehind, Bool.or_false]
      exact h.overrun
    · rw [List.filter_append, (hselect _).1, List.map_append]
      exact hinsert
    · rw [List.filter_append, (hselect _).2, List.append_nil]
      exact h.operations

end Writing

namespace Lower

section

variable {tag : Tag} (d : Directive) (children : List Node)

theorem gives_none_listen (htag : tag.isComponent = false) : Gives (· = none) (listen d tag) := by
  unfold listen
  split
  · exact .pure rfl
  · cases d.exp.isNone && d.modifiers.isEmpty <;>
      simp only [htag, if_true, Bool.false_eq_true, if_false]
    · exact .bind fun _ => .bind fun _ => .pure rfl
    · exact .bind fun _ => .bind fun _ => .bind fun _ => .pure rfl

theorem gives_none_model (htag : tag.isComponent = false) : Gives (· = none) (model d tag) := by
  have hreport : ∀ code loc, Gives (· = none) (do
      report code loc
      return (none : Option Property)) := fun code loc => .bind fun _ => .pure rfl
  unfold model
  split
  · exact hreport _ _
  · dsimp only
    split
    · exact hreport _ _
    · refine .bind fun inScope => ?_
      split
      · exact hreport _ _
      · simp only [htag, Bool.false_eq_true, if_false]
        rcases d.arg with _ | arg
        -- with an argument, a mistake is reported first
        rotate_left
        refine .bind fun _ => ?_
        all_goals
          refine .bind fun type => ?_
          split
          · exact .pure rfl
          · exact .bind fun _ => .bind fun _ => .pure rfl

theorem gives_none_visibility : Gives (· = none) (visibility d) := by
  unfold visibility
  split
  · exact .bind fun _ => .pure rfl
  · exact .bind fun _ => .bind fun _ => .pure rfl

theorem gives_none_innerHtml : Gives (· = none) (innerHtml d children) :=
  .bind fun _ => .bind fun _ => .bind fun _ => .pure rfl

theorem gives_none_innerText : Gives (· = none) (innerText d tag children) := by
  refine .bind fun value => ?_
  split
  · exact .pure rfl
  · split
    · exact .bind fun _ => .pure rfl
    · refine .bind fun _ => .bind fun e => ?_
      cases tag.isComponent with
      | true => exact .bind fun _ => .pure rfl
      | false => exact .bind fun _ => .bind fun _ => .pure rfl

theorem propertyOf_native (htag : tag.isComponent = false) (c : Context) :
    (propertyOf .none d tag children c).1 = if d.name == "bind" then d.boundProperty? tag else none := by
  have hgives : ∀ r, r = (if d.name == "bind" then d.boundProperty? tag else none) →
      Gives (· = r) (propertyOf .none d tag children) := by
    intro r hr
    unfold propertyOf
    split
    · next step hstep =>
      have hmem := mem_directiveSteps hstep
      simp only [directiveSteps, List.mem_cons, Prod.mk.injEq, List.not_mem_nil, or_false] at hmem
      rcases hmem with h | h | h | h | h | h <;> obtain ⟨hname, rfl⟩ := h <;> rw [hname] at hr <;> subst hr
      · exact .pure rfl
      · exact gives_none_listen d htag
      · exact gives_none_model d htag
      · exact gives_none_visibility d
      · exact gives_none_innerHtml d children
      · exact gives_none_innerText d children
    · next hstep =>
      have hbind : (d.name == "bind") = false := by
        refine beq_eq_false_iff_ne.mpr fun hname => ?_
        simp [directiveStep?, Extensions.none, directiveSteps, hname] at hstep
      simp only [hbind, Bool.false_eq_true, if_false] at hr
      subst hr
      split
      · exact .bind fun _ => .bind fun _ => .bind fun _ => .pure rfl
      · exact .pure rfl
  exact hgives _ rfl c

end

section

variable {front back : View} {start c : Context} {done : List Setting} {cursor : Cursor} {tag : Tag}

theorem gatherObject_native (htag : tag.isComponent = false) (h : Writing front back start done cursor c)
    (d : Directive) (draft : PropertyDraft) (hname : d.name = "bind" ∨ d.name = "on") :
    let r := gatherObject d tag draft cursor c
    r.1.1 = (if d.name != "bind" then draft else d.exp.elim draft fun e => draft.addObject e false) ∧
      Writing front back start done r.1.2 r.2 := by
  intro r
  have hreport : ∀ code loc, Writing front back start done cursor (report code loc c).2 := fun code loc =>
    h.does (does_report code loc) rfl
  cases hexp : d.exp with
  | none =>
    have hrun : r = ((draft, cursor),
        (report (if d.name == "bind" then .bindNoExpression else .onNoExpression) (some d.loc) c).2) := by
      simp only [r, gatherObject, hexp]
      rfl
    rw [hrun]
    exact ⟨by simp, hreport _ _⟩
  | some e =>
    rcases hname with hname | hname
    · have hrun : r = ((draft.addObject e false, cursor), c) := by
        simp [r, gatherObject, hexp, hname]
      rw [hrun, hname]
      exact ⟨rfl, h⟩
    · have hrun : r = ((draft, (registerEffect [e] (.setEvents (reference c).1 e) cursor (reference c).2).1),
          (registerEffect [e] (.setEvents (reference c).1 e) cursor (reference c).2).2) := by
        simp [r, gatherObject, hexp, hname, htag]
      rw [hrun, hname]
      refine ⟨rfl, ?_⟩
      have hset := h.reference.registerEffect ⟨[e], .setEvents (reference c).1 e⟩
      simpa [Operation.isProperty] using hset

theorem gatherItem_native (htag : tag.isComponent = false) (children : List Node)
    (h : Writing front back start done cursor c) (item : TagItem) (draft : PropertyDraft) :
    let r := gatherItem .none tag children item draft cursor c
    r.1.1 = item.gather tag draft ∧ Writing front back start done r.1.2 r.2 := by
  rcases item with a | ⟨e, loc⟩
  · rw [gatherItem, TagItem.gather, htag]
    dsimp only
    generalize Directive.ofAttribute a false = d
    by_cases hobject : (d.arg.isNone && (d.name == "bind" || d.name == "on")) = true
    · rw [if_pos hobject]
      simp only [Bool.and_eq_true, Bool.or_eq_true, beq_iff_eq] at hobject
      obtain ⟨hgives, hwriting⟩ := gatherObject_native htag h d draft hobject.2
      refine ⟨hgives.trans ?_, hwriting⟩
      rw [hobject.1]
      rfl
    · rw [if_neg hobject]
      have hproperty := propertyOf_native d children htag c
      have hwriting := h.does (tells_propertyOf d tag children).toDoes rfl
      cases hbind : d.name == "bind" with
      | false =>
        simp only [hbind, Bool.and_false, Bool.false_and, Bool.false_eq_true, if_false] at hproperty ⊢
        rw [run_bind, hproperty]
        exact ⟨by simp [bne, hbind], hwriting⟩
      | true =>
        have harg : d.arg.isNone = false := by
          cases ha : d.arg.isNone with
          | false => rfl
          | true => simp [ha, hbind] at hobject
        simp only [hbind, Bool.and_true, if_true] at hproperty ⊢
        simp only [bne, hbind, harg, Bool.not_true, Bool.false_eq_true, if_false]
        split
        · exact ⟨rfl, h⟩
        · rw [run_bind, hproperty]
          cases d.boundProperty? tag with
          | none | some p => exact ⟨rfl, hwriting⟩
  · exact ⟨rfl, h⟩

theorem propertiesOf_native (htag : tag.isComponent = false) (children : List Node)
    (h : Writing front back start done cursor c) :
    let r := propertiesOf .none tag children cursor c
    r.1.1 = tag.properties ∧ Writing front back start done r.1.2 r.2 := by
  have hitems : ∀ (items : List TagItem) (draft : PropertyDraft) (cursor : Cursor) (c : Context),
      Writing front back start done cursor c →
      let r := gatherItems .none tag children items draft cursor c
      r.1.1 = items.foldl (TagItem.gather tag) draft ∧ Writing front back start done r.1.2 r.2 := by
    intro items
    induction items with
    | nil => exact fun _ _ _ h => ⟨rfl, h⟩
    | cons item items ih =>
      intro draft cursor c h
      obtain ⟨hgives, hwriting⟩ := gatherItem_native htag children h item draft
      obtain ⟨hgives', hwriting'⟩ := ih (gatherItem .none tag children item draft cursor c).1.1 _ _ hwriting
      rw [gatherItems, run_bind, List.foldl_cons, ← hgives]
      exact ⟨hgives', hwriting'⟩
  obtain ⟨hgives, hwriting⟩ := hitems tag.items ⟨[], [], []⟩ cursor c h
  rw [propertiesOf, run_bind]
  exact ⟨congrArg PropertyDraft.finish hgives, hwriting⟩

theorem writeProperties_native (tag : Tag) (h : Writing front back start done cursor c) (ps : List Property)
    (dynamicKeys : List String) :
    let c' := (writeProperties tag ps dynamicKeys cursor c).2
    let number := (reference c).1
    (∃ cursor', Writing front back start (done ++ (Property.unfolded dynamicKeys ps).map fun p =>
      ⟨p.values, .setProperty number p tag.name⟩) cursor' c') ∧
      (Property.unfolded dynamicKeys ps = [] ∨ c'.frame.plan.id = some number) := by
  induction ps generalizing dynamicKeys cursor c done with
  | nil =>
    refine ⟨⟨cursor, ?_⟩, Or.inl rfl⟩
    rw [Property.unfolded, List.map_nil, List.append_nil]
    exact h
  | cons p ps ih =>
    rw [writeProperties, Property.unfolded]
    by_cases hfold : p.isFoldable dynamicKeys = true
    · simp only [hfold, if_true]
      exact ih h dynamicKeys
    · simp only [hfold, Bool.false_eq_true, if_false]
      let number := (reference c).1
      let r := registerEffect p.values (.setProperty number p tag.name) cursor (reference c).2
      have hset : Writing front back start (done ++ [⟨p.values, .setProperty number p tag.name⟩]) r.1 r.2 :=
        h.reference.registerEffect ⟨p.values, .setProperty number p tag.name⟩
      -- the element has its number from now on
      have hid : r.2.frame.plan.id = some number := by
        have hkept : r.2.frame = (reference c).2.frame := by
          rcases registerEffect_cases p.values (.setProperty number p tag.name) cursor (reference c).2 with
            ⟨next, hrun, -⟩ | ⟨es, next, hrun, -⟩ <;> simp only [r, hrun] <;> rfl
        rw [hkept]
        exact reference_id c
      have hnumber : (reference r.2).1 = number := by rw [reference_of_some hid]
      obtain ⟨⟨cursor', hwriting⟩, -⟩ := ih hset (dynamicKeys ++ [p.key.content])
      rw [hnumber, List.append_assoc, List.singleton_append] at hwriting
      refine ⟨⟨cursor', hwriting⟩, Or.inr ?_⟩
      rcases (((does_writeProperties tag ps (dynamicKeys ++ [p.key.content]) r.1).plain rfl).tidy r.2).number with
        ⟨hkept, -⟩ | ⟨hnone, -⟩
      · exact hkept.trans hid
      · rw [hid] at hnone
        cases hnone

theorem attributesOf_native (tag : Tag) (h : Writing front back start [] cursor c) :
    let c' := (attributesOf tag tag.properties cursor c).2
    ∃ number, (∃ cursor', Writing front back start (tag.settings number) cursor' c') ∧
      (tag.settings number = [] ∨ c'.frame.plan.id = some number) := by
  refine ⟨(reference c).1, ?_⟩
  unfold Tag.settings attributesOf
  cases tag.properties with
  | fixed properties =>
    obtain ⟨hwriting, hid⟩ := writeProperties_native tag h properties []
    refine ⟨?_, hid.imp_left fun hnil => ?_⟩
    · rw [List.nil_append] at hwriting
      exact hwriting
    · dsimp only
      rw [hnil, List.map_nil]
  | grouped groups expressions =>
    refine ⟨⟨_, h.reference.registerEffect ⟨expressions, .setProperties (reference c).1 groups tag.name⟩⟩,
      Or.inr ?_⟩
    show (registerEffect expressions (.setProperties (reference c).1 groups tag.name) cursor
      (reference c).2).2.frame.plan.id = some (reference c).1
    rcases registerEffect_cases expressions (.setProperties (reference c).1 groups tag.name) cursor
      (reference c).2 with ⟨next, hrun, -⟩ | ⟨es, next, hrun, -⟩ <;> rw [hrun] <;> exact reference_id c

end

/-- An element of the document is finished: its settings come where the block ended when the walk came to
the element, before all that was added for the nodes below it. -/
theorem exitElement_native {front back : View} {c : Context} {path : Path} {tag : Tag}
    {children : List Node} (hv : c.frame.node = some (.node path (.element tag children)))
    (ht : tag.type = .element) (h : c.view = front.append back) :
    let c' := (exitElement .none ⟨some front.effects.length, some front.operations.length⟩ c).2
    ∃ own : List Owner, (own = [] ∨ ∃ number once,
        own = [⟨number, path, tag, once⟩] ∧ c'.frame.plan.id = some number) ∧
      ∃ added, added.outlines = back.outlines ∧
        added.effects.filter Effect.isProperty =
          own.flatMap Owner.effects ++ back.effects.filter Effect.isProperty ∧
        added.operations.filter Operation.isProperty =
          own.flatMap Owner.operations ++ back.operations.filter Operation.isProperty ∧
        Undisturbed c c' ∧ c'.view = front.append added ∧
        c'.saved.map SavedBlock.view = c.saved.map SavedBlock.view := by
  intro c'
  have htag : tag.isComponent = false := by simp [Tag.isComponent, ht]
  let c₁ := (note (.gathered path) c).2
  have hstart : Writing front back c [] ⟨some front.effects.length, some front.operations.length⟩ c₁ :=
    (Writing.start_of_view h).work rfl ⟨⟨rfl, rfl⟩, by simp [c₁]; rfl, rfl⟩ .empty
  obtain ⟨hproperties, hgathered⟩ := propertiesOf_native htag children hstart
  generalize hr : propertiesOf .none tag children ⟨some front.effects.length,
    some front.operations.length⟩ c₁ = r at hproperties hgathered
  obtain ⟨number, ⟨cursor', hwritten⟩, hid⟩ := attributesOf_native tag hgathered
  -- what remains changes only the markup
  let finish : String → Bool → Lower Unit := fun attributes singleRoot => do
    let inner ← takeChildTemplates
    modifyFrame fun f => { f with rootTemplate := f.rootTemplate || singleRoot }
    placeElement tag (elementMarkup tag attributes inner)
  have hdoes : ∀ attributes singleRoot,
      Does [.number, .markup, .root, .piece, .flags] (finish attributes singleRoot) := fun _ singleRoot =>
    does_takeChildTemplates.bind rfl fun _ => (does_root (· || singleRoot)).bind rfl fun _ =>
      (does_placeElement tag (elementMarkup_ne_empty _ _ _)).mono rfl
  let r' := attributesOf tag tag.properties r.1.2 r.2
  have hrun : c' = (finish r'.1 (isSingleRoot r.2).1 r'.2).2 := by
    have ht' : (tag.type == .template) = false := by rw [ht]; rfl
    have hlower : c' = (lowerElement tag r.1.1 (isSingleRoot r.2).1 r.1.2 r.2).2 := by
      simp only [c', exitElement, run_bind, node_of_some hv, ht', htag, Bool.false_eq_true, if_false]
      rw [← hr]
      rfl
    rw [hlower, hproperties]
    rfl
  obtain ⟨hidle, -⟩ := (hdoes r'.1 (isSingleRoot r.2).1).idling rfl r'.2
  have hview : c'.view = r'.2.view := by
    rw [hrun, hidle.extended.view, View.append_empty]
  obtain ⟨effects, heffects, hproperty⟩ := hwritten.effects.split
  obtain ⟨operations, hoperations, hproperty'⟩ := hwritten.operations.split
  obtain ⟨own, hown, heffect, hoperation⟩ : ∃ own : List Owner, (own = [] ∨ ∃ number once,
        own = [⟨number, path, tag, once⟩] ∧ c'.frame.plan.id = some number) ∧
      own.flatMap Owner.effects =
        ((tag.settings number).filter fun s => s.isReactive c.frame.once).map Setting.effect ∧
      own.flatMap Owner.operations =
        ((tag.settings number).filter fun s => !s.isReactive c.frame.once).map Setting.operation := by
    rcases hid with hnone | hid
    · exact ⟨[], Or.inl rfl, by simp [hnone]⟩
    · refine ⟨[⟨number, path, tag, c.frame.once⟩], Or.inr ⟨number, c.frame.once, rfl, ?_⟩,
        by simp [Owner.effects, Owner.operations]⟩
      rw [hrun]
      rcases (((hdoes r'.1 (isSingleRoot r.2).1).plain rfl).tidy r'.2).number with ⟨hkept, -⟩ | ⟨hnone, -⟩
      · exact hkept.trans hid
      · rw [hid] at hnone
        cases hnone
  refine ⟨own, hown, ⟨effects, operations, back.outlines⟩, rfl, heffect ▸ hproperty,
    hoperation ▸ hproperty', ?_, ?_, ?_⟩
  · rw [hrun]
    exact hwritten.toUndisturbed.trans hidle.toUndisturbed
  · have houtlines : r'.2.frame.outlines = front.outlines ++ back.outlines :=
      hwritten.outlines.trans (congrArg View.outlines h)
    rw [hview, Context.view, OpenBlock.view, heffects, hoperations]
    exact congrArg (View.mk _ _) houtlines
  · rw [hrun, hidle.extended.saved]
    exact hwritten.saved

theorem exitElement_component {c : Context} {path : Path} {tag : Tag} {children : List Node}
    (hv : c.frame.node = some (.node path (.element tag children))) (ht : tag.type = .component)
    (cursor : Cursor) :
    ∃ added, Extends added c (exitElement .none cursor c).2 ∧ added.IsWork := by
  have htag : tag.isComponent = true := by simp [Tag.isComponent, ht]
  have ht' : (tag.type == .template) = false := by rw [ht]; rfl
  -- no object of listeners is set for a component
  have hitem : ∀ (item : TagItem) (draft : PropertyDraft) (cursor : Cursor),
      Does attributeDeeds (gatherItem .none tag children item draft cursor) := by
    intro item draft cursor
    unfold gatherItem
    split
    · exact .pure _
    · dsimp only
      split
      · unfold gatherObject
        split
        · exact (does_report _ _).bind rfl fun _ => .pure _
        · simp only [htag, Bool.or_true, if_true]
          exact .pure _
      · split
        · exact .pure _
        · refine (tells_propertyOf _ _ _).toDoes.bind rfl fun p => ?_
          split <;> exact .pure _
  have hitems : ∀ (items : List TagItem) (draft : PropertyDraft) (cursor : Cursor),
      Does attributeDeeds (gatherItems .none tag children items draft cursor) := by
    intro items
    induction items with
    | nil => exact fun _ _ => .pure _
    | cons item items ih => exact fun _ _ => (hitem _ _ _).bind rfl fun r => ih r.1 r.2
  have hproperties : Does attributeDeeds (propertiesOf .none tag children cursor) :=
    (hitems _ _ _).bind rfl fun _ => .pure _
  have hall : Does ([.gather, .flags, .slots, .operation] ++ attributeDeeds) (do
      note (.gathered path)
      let r ← propertiesOf .none tag children cursor
      let singleRoot ← isSingleRoot
      lowerComponent tag r.1 singleRoot) :=
    .bind (.ofChange (uniform_note _) fun _ => Or.inr (.gather _)) rfl fun _ =>
      hproperties.bind rfl fun r => does_isSingleRoot.bind rfl fun singleRoot =>
        (does_lowerComponent _ _ _).mono rfl
  have hrun : exitElement .none cursor c = (do
      note (.gathered path)
      let r ← propertiesOf .none tag children cursor
      let singleRoot ← isSingleRoot
      lowerComponent tag r.1 singleRoot : Lower Unit) c := by
    rw [exitElement, run_bind, node_of_some hv]
    simp only [ht', htag, Bool.false_eq_true, if_false, if_true]
  rw [hrun]
  exact hall.working rfl c

end Lower

end JsxTemplate
