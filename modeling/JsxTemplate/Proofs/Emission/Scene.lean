import JsxTemplate.Proofs.Listing.Flat

/-!
# Scenes

What an action of code generation writes depends only on a part of the state, the scene: what is wanted of
the code, what stands for variables, and which loops, slots and blocks are around. Helpers and events are
merely gathered.

Scenes match if the same can be written in them: their renamings replace the same variables by the same
code, where one may know more variables than the other as long as these stand for themselves. An action is
settled if it writes the same in scenes that match, catches no events and leaves the scene as it was
(`Emit.Settled`).
-/

namespace JsxTemplate

/-! ## Renamings -/

namespace Renaming

/-- The code that stands for a variable, if it is replaced. -/
def replacement? (r : Renaming) (name : String) : Option String := (r.find? name).join

/-- What a group of variables makes of a name: its last entry for the name counts. -/
def innermost? (entries : List (String × Option String)) (name : String) : Option (Option String) :=
  (entries.reverse.find? fun entry => entry.1 == name).map Prod.snd

theorem find?_push (r : Renaming) (entries : List (String × Option String)) (name : String) :
    (r.push entries).find? name = (innermost? entries name).or (r.find? name) := by
  rw [find?, push, List.find?_append, innermost?, find?]
  cases List.find? (fun entry => entry.1 == name) entries.reverse <;> rfl

theorem pop_append (r top : Renaming) (names : List String) (h : (top.map Prod.fst).Perm names) :
    (top ++ r).pop names = r := by
  induction names generalizing top with
  | nil =>
    obtain rfl := List.map_eq_nil_iff.mp h.eq_nil
    rfl
  | cons name names ih =>
    have hmem : name ∈ top.map Prod.fst := h.symm.subset List.mem_cons_self
    obtain ⟨entry, hentry, hname⟩ := List.mem_map.mp hmem
    have herase : popOne (top ++ r) name = popOne top name ++ r :=
      List.eraseP_append_left (by simpa using hname) r hentry
    have hrest : ((popOne top name).map Prod.fst).Perm names := by
      have hcomp : (fun entry : String × Option String => entry.1 == name) = (· == name) ∘ Prod.fst := rfl
      rw [popOne, hcomp, ← List.eraseP_map, ← List.erase_eq_eraseP']
      exact (h.erase name).trans (by simp)
    rw [pop, List.foldl_cons, herase]
    exact ih _ hrest

theorem pop_push (r : Renaming) (entries : List (String × Option String)) :
    (r.push entries).pop (entries.map Prod.fst) = r :=
  pop_append r entries.reverse _ (by simp)

/-- Whether two renamings replace the same variables by the same code. -/
def Alike (r r' : Renaming) : Prop := ∀ name, r.replacement? name = r'.replacement? name

theorem Alike.refl (r : Renaming) : r.Alike r := fun _ => rfl

theorem Alike.symm {r r' : Renaming} (h : r.Alike r') : r'.Alike r := fun name => (h name).symm

theorem Alike.push {r r' : Renaming} (h : r.Alike r') (entries : List (String × Option String)) :
    (r.push entries).Alike (r'.push entries) := by
  intro name
  rw [replacement?, replacement?, find?_push, find?_push]
  cases innermost? entries name with
  | none => exact h name
  | some entry => rfl

theorem replacement?_eq_some {r : Renaming} {name text : String} :
    r.replacement? name = some text ↔ r.find? name = some (some text) := by
  rw [replacement?, Option.join_eq_some_iff]

end Renaming

namespace Expression

open Script (Reference)

variable {names names' : Renaming} (e : Expression)

theorem substituteFrom_congr (h : names.Alike names') (start stop last : Nat) (rs : List Reference) :
    e.substituteFrom names start stop last rs = e.substituteFrom names' start stop last rs := by
  induction rs generalizing last with
  | nil => rfl
  | cons r rs ih =>
    have hfind : ∀ text, names.find? r.name = some (some text) ↔ names'.find? r.name = some (some text) := by
      intro text
      rw [← Renaming.replacement?_eq_some, ← Renaming.replacement?_eq_some, h r.name]
    simp only [substituteFrom, ih]
    rcases hf : names.find? r.name with _ | _ | text
    · rcases hf' : names'.find? r.name with _ | _ | text'
      · rfl
      · rfl
      · simp [(hfind text').mpr hf'] at hf
    · rcases hf' : names'.find? r.name with _ | _ | text'
      · rfl
      · rfl
      · simp [(hfind text').mpr hf'] at hf
    · rw [(hfind text).mp hf]

theorem substituteFrom_of_alike_nil (h : names.Alike []) (start stop last : Nat) (rs : List Reference) :
    e.substituteFrom names start stop last rs = e.substituteFrom [] start stop last [] := by
  rw [substituteFrom_congr e h]
  induction rs with
  | nil => rfl
  | cons r rs ih => simp [substituteFrom, ih, Renaming.find?]

/-- An expression in which nothing is replaced is written as it is, whether names are known or not. -/
theorem substituted?_eq (names : Renaming) :
    e.substituted? names = if e.isEmpty || e.isConstant then none else
      (Script.references? e.content).bind fun references =>
        if (e.substitute names references 0 e.content.utf8ByteSize).2 == 0 then none
        else some (e.substitute names references 0 e.content.utf8ByteSize).1 := by
  have hnone : ∀ references, (e.substitute [] references 0 e.content.utf8ByteSize).2 = 0 := by
    intro references
    rw [substitute, substituteFrom_of_alike_nil e (.refl []), substituteFrom]
  cases names with
  | nil =>
    rw [substituted?]
    simp [hnone]
  | cons entry names =>
    rw [substituted?]
    simp

theorem code_congr (h : names.Alike names') : e.code names = e.code names' := by
  have hcode : e.substituted? names = e.substituted? names' := by
    have hsubstitute : substituteFrom names e = substituteFrom names' e := by
      funext start stop last rs
      exact substituteFrom_congr e h start stop last rs
    rw [substituted?_eq, substituted?_eq]
    unfold substitute
    rw [hsubstitute]
  rw [code, code, hcode]

theorem assignment_congr (h : names.Alike names') (value : String) :
    e.assignment names value = e.assignment names' value := by
  simp only [assignment, code_congr e h]

end Expression

/-! ## Scenes -/

/-- What is in force in a place of the code. -/
structure Ambient where
  options : EmitOptions
  hasReference : Bool
  names : Renaming
  depth : Nat

/-- What the code of an action depends on. -/
structure Scene extends Ambient where
  /-- The blocks around, the innermost first, each with the number of its next temporary variable. -/
  blocks : List (Block × Nat)

def Emitter.scene (s : Emitter) : Scene := ⟨⟨s.options, s.hasReference, s.names, s.depth⟩, s.blocks⟩

namespace Ambient

def push (κ : Ambient) (entries : List (String × Option String)) : Ambient :=
  { κ with names := κ.names.push entries }

def deeper (κ : Ambient) : Ambient := { κ with depth := κ.depth + 1 }

/-- Whether the same is written in two places, apart from loops. -/
structure Matches (κ κ' : Ambient) : Prop where
  withFallback : κ.options.withFallback = κ'.options.withFallback
  hasReference : κ.hasReference = κ'.hasReference
  names : κ.names.Alike κ'.names
  depth : κ.depth = κ'.depth

namespace Matches

variable {κ κ' : Ambient}

theorem refl (κ : Ambient) : κ.Matches κ := ⟨rfl, rfl, .refl _, rfl⟩

theorem of_eq (h : κ = κ') : κ.Matches κ' := h ▸ refl κ

theorem symm (h : κ.Matches κ') : κ'.Matches κ :=
  ⟨h.withFallback.symm, h.hasReference.symm, h.names.symm, h.depth.symm⟩

theorem push (h : κ.Matches κ') (entries : List (String × Option String)) :
    (κ.push entries).Matches (κ'.push entries) :=
  { h with names := h.names.push entries }

end Matches

end Ambient

namespace Scene

def start (σ : Scene) : Emitter := ⟨σ.options, σ.hasReference, [], [], σ.names, σ.depth, σ.blocks⟩

def push (σ : Scene) (entries : List (String × Option String)) : Scene :=
  { σ with toAmbient := σ.toAmbient.push entries }

def deeper (σ : Scene) : Scene := { σ with toAmbient := σ.toAmbient.deeper }

def enter (σ : Scene) (b : Block) (next : Nat) : Scene := { σ with blocks := (b, next) :: σ.blocks }

structure Matches (σ τ : Scene) : Prop extends σ.toAmbient.Matches τ.toAmbient where
  current : σ.blocks.head? = τ.blocks.head?

namespace Matches

variable {σ τ : Scene}

theorem refl (σ : Scene) : σ.Matches σ := ⟨.refl _, rfl⟩

theorem symm (h : σ.Matches τ) : τ.Matches σ := ⟨h.toMatches.symm, h.current.symm⟩

theorem push (h : σ.Matches τ) (entries : List (String × Option String)) :
    (σ.push entries).Matches (τ.push entries) :=
  ⟨h.toMatches.push entries, h.current⟩

end Matches

end Scene

namespace Emit

variable {events : List String} {σ σ' : Scene}

/-! ## What an action does in a scene -/

variable {α β : Type}

/-- Whether some events were added to others, none of them twice. -/
structure Gathers (before events after : List String) : Prop where
  mem : ∀ e, e ∈ after ↔ e ∈ before ∨ e ∈ events
  nodup : before.Nodup → after.Nodup

theorem Gathers.trans {before between after events events' : List String}
    (h : Gathers before events between) (h' : Gathers between events' after) :
    Gathers before (events ++ events') after := by
  refine ⟨fun e => ?_, h'.nodup ∘ h.nodup⟩
  rw [h'.mem, h.mem, List.mem_append, or_assoc]

theorem Gathers.congr {before events events' after : List String} (h : Gathers before events after)
    (hsame : ∀ e, e ∈ events ↔ e ∈ events') : Gathers before events' after :=
  ⟨fun e => by rw [h.mem, hsame], h.nodup⟩

/-- Whether an action does the same from all states with a scene: it gives a value, catches events and
leads to another scene. -/
def Yields (x : Emit α) (σ : Scene) (a : α) (events : List String) (σ' : Scene) : Prop :=
  ∀ s : Emitter, s.scene = σ →
    (x s).1 = a ∧ (x s).2.scene = σ' ∧ Gathers s.delegates events (x s).2.delegates

theorem Yields.of_delegates_eq {x : Emit α} {a : α}
    (h : ∀ s : Emitter, s.scene = σ → (x s).1 = a ∧ (x s).2.scene = σ')
    (hd : ∀ s, (x s).2.delegates = s.delegates) : Yields x σ a [] σ' := by
  intro s hs
  refine ⟨(h s hs).1, (h s hs).2, ?_⟩
  rw [hd]
  exact ⟨fun e => by rw [or_iff_left List.not_mem_nil], id⟩

theorem Yields.pure (σ : Scene) (a : α) : Yields (Pure.pure a) σ a [] σ :=
  .of_delegates_eq (fun _ hs => ⟨rfl, hs⟩) fun _ => rfl

theorem Yields.bind {x : Emit α} {f : α → Emit β} {σ σ' σ'' : Scene} {a : α} {b : β}
    {events events' : List String} (hx : Yields x σ a events σ') (hf : Yields (f a) σ' b events' σ'') :
    Yields (x >>= f) σ b (events ++ events') σ'' := by
  intro s hs
  obtain ⟨ha, hscene, hevents⟩ := hx s hs
  obtain ⟨hb, hscene', hevents'⟩ := hf (x s).2 hscene
  have hrun : (x >>= f) s = f a (x s).2 := by rw [← ha]; rfl
  rw [hrun]
  exact ⟨hb, hscene', hevents.trans hevents'⟩

theorem Yields.bind_of_nil {x : Emit α} {f : α → Emit β} {σ σ' σ'' : Scene} {a : α} {b : β}
    (hx : Yields x σ a [] σ') (hf : Yields (f a) σ' b events σ'') : Yields (x >>= f) σ b events σ'' :=
  hx.bind hf

theorem Yields.map {x : Emit α} {a : α} (h : Yields x σ a events σ') (f : α → β) :
    Yields (do let a ← x; return f a) σ (f a) events σ' := by
  rw [← List.append_nil events]
  exact h.bind (.pure σ' (f a))

theorem Yields.mapM {f : β → Emit α} {g : β → α} {σ : Scene} (h : ∀ b, Yields (f b) σ (g b) [] σ)
    (l : List β) : Yields (l.mapM f) σ (l.map g) [] σ := by
  induction l with
  | nil => exact .pure σ []
  | cons b l ih =>
    rw [List.mapM_cons]
    exact (h b).bind (ih.bind (.pure σ _))

theorem Yields.get {f : Emitter → Emit α} {a : α} (hf : ∀ s : Emitter, s.scene = σ → f s = f σ.start)
    (hx : Yields (f σ.start) σ a events σ') : Yields (get >>= f) σ a events σ' := by
  intro s hs
  have hrun : (MonadState.get >>= f) s = f σ.start s := by rw [← hf s hs]; rfl
  rw [hrun]
  exact hx s hs

/-- The value of an action can be found by running it where nothing was gathered. -/
theorem Yields.value {x : Emit α} {a : α} (h : Yields x σ a events σ') : (x σ.start).1 = a :=
  (h σ.start rfl).1

/-- Whether two actions, run in two scenes, catch the same events, give values that are related where these
events are caught, and lead to two further scenes. -/
def Parallel (σ τ : Scene) (x y : Emit α) (Q : List String → α → α → Prop) (σ' τ' : Scene) : Prop :=
  ∃ a b events, Yields x σ a events σ' ∧ Yields y τ b events τ' ∧ Q events a b

namespace Parallel

variable {σ τ σ' τ' σ'' τ'' : Scene} {Q : List String → α → α → Prop} {Q' : List String → β → β → Prop}
  {x y : Emit α}

theorem pure {a b : α} (h : Q [] a b) : Parallel σ τ (Pure.pure a) (Pure.pure b) Q σ τ :=
  ⟨a, b, [], .pure σ a, .pure τ b, h⟩

theorem bind {f g : α → Emit β} (h : Parallel σ τ x y Q σ' τ')
    (hf : ∀ events a b, Q events a b →
      Parallel σ' τ' (f a) (g b) (fun more => Q' (events ++ more)) σ'' τ'') :
    Parallel σ τ (x >>= f) (y >>= g) Q' σ'' τ'' := by
  obtain ⟨a, b, events, hx, hy, hab⟩ := h
  obtain ⟨a', b', events', hx', hy', hab'⟩ := hf events a b hab
  exact ⟨a', b', events ++ events', hx.bind hx', hy.bind hy', hab'⟩

theorem after {a b : α} {f g : α → Emit β} (hx : Yields x σ a [] σ') (hy : Yields y τ b [] τ')
    (h : Parallel σ' τ' (f a) (g b) Q' σ'' τ'') : Parallel σ τ (x >>= f) (y >>= g) Q' σ'' τ'' := by
  obtain ⟨a', b', events, hx', hy', hab⟩ := h
  exact ⟨a', b', events, hx.bind hx', hy.bind hy', hab⟩

theorem get {f g : Emitter → Emit α} (hf : ∀ s : Emitter, s.scene = σ → f s = f σ.start)
    (hg : ∀ s : Emitter, s.scene = τ → g s = g τ.start)
    (h : Parallel σ τ (f σ.start) (g τ.start) Q σ' τ') :
    Parallel σ τ (MonadState.get >>= f) (MonadState.get >>= g) Q σ' τ' := by
  obtain ⟨a, b, events, hx, hy, hab⟩ := h
  exact ⟨a, b, events, .get hf hx, .get hg hy, hab⟩

end Parallel

/-- Whether two lists are related item by item, where certain events are caught in all. -/
inductive Each (R : List String → α → α → Prop) : List String → List α → List α → Prop
  | nil : Each R [] [] []
  | cons {events more : List String} {a a' : α} {as as' : List α} (h : R events a a')
    (hs : Each R more as as') : Each R (events ++ more) (a :: as) (a' :: as')

/-- Whether two values are related if they are there, where certain events are caught. -/
inductive Maybe (R : List String → α → α → Prop) : List String → Option α → Option α → Prop
  | none : Maybe R [] none none
  | some {events : List String} {a a' : α} (h : R events a a') : Maybe R events (some a) (some a')

namespace Each

variable {R : List String → α → α → Prop} {R' : List String → β → β → Prop} {as as' : List α}

theorem map (h : Each R events as as') {f g : α → β}
    (hf : ∀ events a a', R events a a' → R' events (f a) (g a')) :
    Each R' events (as.map f) (as'.map g) := by
  induction h with
  | nil => exact .nil
  | cons h _ ih => exact .cons (hf _ _ _ h) ih

theorem append {more : List String} {bs bs' : List α} (h : Each R events as as') (h' : Each R more bs bs') :
    Each R (events ++ more) (as ++ bs) (as' ++ bs') := by
  induction h with
  | nil => exact h'
  | cons h _ ih =>
    rw [List.append_assoc]
    exact .cons h ih

end Each

theorem Parallel.mapM {γ : Type} {σ τ : Scene} {R : List String → α → α → Prop} {f g : γ → Emit α}
    {l : List γ} (h : ∀ c ∈ l, Parallel σ τ (f c) (g c) R σ τ) :
    Parallel σ τ (l.mapM f) (l.mapM g) (Each R) σ τ := by
  induction l with
  | nil => exact .pure .nil
  | cons c l ih =>
    obtain ⟨a, b, events, hx, hy, hab⟩ := h c List.mem_cons_self
    obtain ⟨as, bs, more, hxs, hys, hs⟩ := ih fun c hc => h c (List.mem_cons_of_mem _ hc)
    simp only [List.mapM_cons]
    exact ⟨_, _, _, hx.bind (hxs.map _), hy.bind (hys.map _), .cons hab hs⟩

/-! ## Settled actions -/

variable {P : α → Prop} {P' : β → Prop}

/-- Whether an action does the same in scenes that match, gives a value with a property, catches some
events and leaves the scene as it was. -/
def Settles (P : α → Prop) (x : Emit α) (events : List String) : Prop :=
  ∀ σ τ, σ.Matches τ → ∃ a, Yields x σ a events σ ∧ Yields x τ a events τ ∧ P a

theorem Settles.bind {x : Emit α} {f : α → Emit β} {events events' : List String}
    (hx : Settles P x events) (hf : ∀ a, P a → Settles P' (f a) events') :
    Settles P' (x >>= f) (events ++ events') := by
  intro σ τ h
  obtain ⟨a, hσ, hτ, ha⟩ := hx σ τ h
  obtain ⟨b, hσ', hτ', hb⟩ := hf a ha σ τ h
  exact ⟨b, hσ.bind hσ', hτ.bind hτ', hb⟩

abbrev Settled (P : α → Prop) (x : Emit α) : Prop := Settles P x []

namespace Settled

theorem pure {a : α} (h : P a) : Settled P (Pure.pure a) := fun σ τ _ => ⟨a, .pure σ a, .pure τ a, h⟩

theorem bind {x : Emit α} {f : α → Emit β} (hx : Settled P x) (hf : ∀ a, P a → Settled P' (f a)) :
    Settled P' (x >>= f) :=
  Settles.bind hx hf

theorem follow {x : Emit α} {f g : α → Emit β} {σ τ σ' τ' : Scene} {Q : List String → β → β → Prop}
    (hx : Settled P x) (h : σ.Matches τ) (hf : ∀ a, P a → Parallel σ τ (f a) (g a) Q σ' τ') :
    Parallel σ τ (x >>= f) (x >>= g) Q σ' τ' := by
  obtain ⟨a, hσ, hτ, ha⟩ := hx σ τ h
  exact .after hσ hτ (hf a ha)

theorem ite {c : Prop} [Decidable c] {x y : Emit α} (hx : Settled P x) (hy : Settled P y) :
    Settled P (if c then x else y) := by
  split
  · exact hx
  · exact hy

theorem mapM {f : α → Emit β} (hf : ∀ a, Settled P' (f a)) (l : List α) :
    Settled (fun bs => ∀ b ∈ bs, P' b) (l.mapM f) := by
  induction l with
  | nil => exact .pure (by simp)
  | cons a l ih =>
    rw [List.mapM_cons]
    exact (hf a).bind fun b hb => ih.bind fun bs hbs => .pure (List.forall_mem_cons.mpr ⟨hb, hbs⟩)

theorem get {f : Emitter → Emit α} (hf : ∀ s, Settled P (f s))
    (hsame : ∀ s t : Emitter, s.scene.Matches t.scene → f s = f t) : Settled P (get >>= f) := by
  intro σ τ h
  obtain ⟨a, hσ, hτ, ha⟩ := hf σ.start σ τ h
  refine ⟨a, .get (fun s hs => ?_) hσ, .get (fun s hs => ?_) ?_, ha⟩
  · exact hsame _ _ (by rw [hs]; exact .refl σ)
  · exact hsame _ _ (by rw [hs]; exact .refl τ)
  · rw [hsame τ.start σ.start h.symm]
    exact hτ

/-- Something may be read from the state if it is the same in scenes that match. -/
theorem read {f : Emitter → α} (hP : ∀ s, P (f s))
    (hf : ∀ s t : Emitter, s.scene.Matches t.scene → f s = f t) :
    Settled P (do return f (← MonadState.get)) :=
  .get (fun s => .pure (hP s)) fun s t h => congrArg Pure.pure (hf s t h)

theorem holds {x : Emit α} (hx : Settled P x) (s : Emitter) : (x s).2.scene = s.scene ∧ P (x s).1 := by
  obtain ⟨a, h, -, ha⟩ := hx s.scene s.scene (.refl _)
  obtain ⟨rfl, hscene, -⟩ := h s rfl
  exact ⟨hscene, ha⟩

end Settled

end Emit

end JsxTemplate
