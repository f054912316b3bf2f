import Mathlib.Data.List.Forall2
import JsxTemplate.Proofs.Loop.Ways

/-!
# Reading the names of a pattern

Following the way to a name step by step leads to what a running script binds the name to, provided that
the expressions of the pattern do not read the names of the pattern.
-/

namespace JsxTemplate

open Script (Key Semantics Scope Tree)

def Script.Key.expressions : Key → List String
  | .name _ => []
  | .string _ literal => [literal]
  | .computed expression => [expression]

def Move.expressions : Move → List String
  | .property key => key.expressions
  | .others keys => keys.flatMap Key.expressions
  | .default expression => [expression]
  | .element _ | .remaining _ => []

namespace Script.Semantics

variable {V : Type} [DecidableEq V] (sem : Semantics V)

def move (scope : Scope V) : Move → V → Option V
  | .property key, v => (sem.key scope key).bind (sem.get v)
  | .element index, v => sem.step v index
  | .remaining index, v => sem.collect v index
  | .others keys, v => (keys.mapM (sem.key scope)).bind (sem.without v)
  | .default expression, v => if v = sem.missing then sem.evaluate scope expression else some v

def follow (scope : Scope V) (moves : List Move) (v : V) : Option V :=
  moves.foldlM (fun v m => sem.move scope m v) v

theorem follow_snoc (scope : Scope V) (moves : List Move) (m : Move) (v : V) :
    sem.follow scope (moves ++ [m]) v = (sem.follow scope moves v).bind (sem.move scope m) := by
  simp [follow, List.foldlM_append]

section

variable (outer here : Scope V) (names : List String)

omit [DecidableEq V]

/-- Whether an expression of a pattern has the same value where the variables are `here`, whatever the
names of the pattern are bound to. -/
def Keeps (expression : String) : Prop :=
  ∀ scope : Scope V, (∀ name ∉ names, scope name = outer name) →
    sem.evaluate scope expression = sem.evaluate here expression

def KeepsMoves (moves : List Move) : Prop :=
  ∀ m ∈ moves, ∀ e ∈ m.expressions, sem.Keeps outer here names e

variable {outer here names}

theorem keepsMoves_snoc {moves : List Move} {m : Move} :
    sem.KeepsMoves outer here names (moves ++ [m]) ↔
      sem.KeepsMoves outer here names moves ∧ ∀ e ∈ m.expressions, sem.Keeps outer here names e := by
  simp [KeepsMoves, or_imp, forall_and]

end

/-- Whether the way to a name leads to what it is bound to, if the expressions on the way keep their
values. What remains of an object has a name, so the way ends there. -/
structure Leads (outer here : Scope V) (names : List String) (item : V) (w : Way) (b : String × V) :
    Prop where
  name : w.name = b.1
  follow : sem.KeepsMoves outer here names w.moves → sem.follow here w.moves item = some b.2
  others_last : ∀ done keys rest, w.moves = done ++ .others keys :: rest → rest = []

section

variable {sem} {script : String} {outer here : Scope V} {names : List String}
  {scope : List (String × V) → Scope V}
  (hscope : ∀ bound, ∀ name ∉ names, scope bound name = outer name)

include hscope

omit [DecidableEq V] in
theorem evaluate_scope {e : String} (he : sem.Keeps outer here names e) (bound : List (String × V)) :
    sem.evaluate (scope bound) e = sem.evaluate here e :=
  he _ (hscope bound)

omit [DecidableEq V] in
theorem key_scope {key : Key} (hkey : ∀ e ∈ key.expressions, sem.Keeps outer here names e)
    (bound : List (String × V)) : sem.key (scope bound) key = sem.key here key := by
  cases key with
  | name text => rfl
  | string value literal => exact evaluate_scope hscope (hkey literal (by simp [Key.expressions])) bound
  | computed e => exact evaluate_scope hscope (hkey e (by simp [Key.expressions])) bound

omit hscope in
theorem bindElements_rest {bound : List (String × V)} {index : Nat} {span : Span} {pattern : Tree}
    {es : List Tree} {v : V} {new : List (String × V)}
    (h : sem.bindElements script scope bound index (.node .rest span [pattern] :: es) v = some new) :
    es = [] ∧ ∃ u, sem.collect v index = some u ∧ sem.bind script scope bound pattern u = some new := by
  cases es with
  | nil =>
    rw [bindElements] at h
    exact ⟨rfl, Option.bind_eq_some_iff.mp h⟩
  | cons e es =>
    -- a rest before other elements is no pattern
    have hnone : ∀ u, sem.bind script scope bound (.node .rest span [pattern]) u = none := fun u => by
      rw [bind] <;> simp
    rw [bindElements] at h <;> simp_all

omit hscope in
theorem bindProperties_rest {bound : List (String × V)} {ks : List V} {span : Span} {pattern : Tree}
    {ps : List Tree} {v : V} {new : List (String × V)}
    (h : sem.bindProperties script scope bound ks (.node .rest span [pattern] :: ps) v = some new) :
    ps = [] ∧ ∃ name span' cs u, pattern = .node (.binding name) span' cs ∧ sem.without v ks = some u ∧
      new = [(name, u)] := by
  rw [bindProperties.eq_def] at h
  split at h
  · next heq => cases heq
  · next heq => simp at heq
  · next heq =>
    obtain ⟨u, hu, rfl⟩ := Option.map_eq_some_iff.mp h
    simp only [List.cons.injEq, Tree.node.injEq, true_and, and_true] at heq
    obtain ⟨⟨-, rfl⟩, rfl⟩ := heq
    exact ⟨rfl, _, _, _, u, rfl, hu, rfl⟩
  · cases h

theorem leads_ways (item : V) :
    (∀ moves t, ∀ bound v new, (∀ keys, .others keys ∉ moves) →
      (sem.KeepsMoves outer here names moves → sem.follow here moves item = some v) →
      sem.bind script scope bound t v = some new →
        List.Forall₂ (Leads sem outer here names item) (Way.ofPattern script moves t) new) ∧
    (∀ moves index es, ∀ bound v new, (∀ keys, .others keys ∉ moves) →
      (sem.KeepsMoves outer here names moves → sem.follow here moves item = some v) →
      sem.bindElements script scope bound index es v = some new →
        List.Forall₂ (Leads sem outer here names item) (Way.ofElements script moves index es) new) ∧
    (∀ moves keys ps, ∀ bound v ks new, (∀ keys, .others keys ∉ moves) →
      (sem.KeepsMoves outer here names moves → sem.follow here moves item = some v) →
      ((∀ e ∈ keys.flatMap Key.expressions, sem.Keeps outer here names e) →
        keys.mapM (sem.key here) = some ks) →
      sem.bindProperties script scope bound ks ps v = some new →
        List.Forall₂ (Leads sem outer here names item) (Way.ofProperties script moves keys ps) new) := by
  refine Way.ofPattern.mutual_induct script _ _ _ ?name ?object ?array ?default ?noPattern ?noElements
    ?hole ?restElements ?element ?noProperties ?property ?restProperties ?noProperty
  case name =>
    intro moves name span cs bound v new hplain hv h
    rw [bind] at h
    rw [Way.ofPattern, ← Option.some.inj h]
    refine .cons ⟨rfl, hv, fun done keys rest heq => absurd ?_ (hplain keys)⟩ .nil
    simp only at heq
    simp [heq]
  case object =>
    intro moves span ps ih bound v new hplain hv h
    rw [bind] at h
    split at h
    · rw [Way.ofPattern]
      exact ih bound v [] new hplain hv (by simp) h
    · cases h
  case array =>
    intro moves span es ih bound v new hplain hv h
    rw [bind] at h
    split at h
    · rw [Way.ofPattern]
      exact ih bound v new hplain hv h
    · cases h
  case default =>
    intro moves span pattern value ih bound v new hplain hv h
    rw [Way.ofPattern]
    rw [bind] at h
    split at h
    · next hmissing =>
      obtain ⟨u, hu, h⟩ := Option.bind_eq_some_iff.mp h
      refine ih bound u new (by simpa using hplain) (fun hkeeps => ?_) h
      obtain ⟨hmoves, hdefault⟩ := sem.keepsMoves_snoc.mp hkeeps
      rw [sem.follow_snoc, hv hmoves, Option.bind_some, move, if_pos hmissing, ← hu]
      exact (evaluate_scope hscope (hdefault _ (by simp [Move.expressions])) bound).symm
    · next hthere =>
      refine ih bound v new (by simpa using hplain) (fun hkeeps => ?_) h
      rw [sem.follow_snoc, hv (sem.keepsMoves_snoc.mp hkeeps).1, Option.bind_some, move, if_neg hthere]
  case noPattern =>
    intro t moves hname hobject harray hdefault bound v new hplain hv h
    rw [bind] at h
    · cases h
    all_goals assumption
  case noElements =>
    intro moves index bound v new hplain hv h
    rw [bindElements] at h
    rw [Way.ofElements, ← Option.some.inj h]
    exact .nil
  case hole =>
    intro moves index span cs es ih bound v new hplain hv h
    rw [bindElements] at h
    obtain ⟨_, -, h⟩ := Option.bind_eq_some_iff.mp h
    rw [Way.ofElements]
    exact ih bound v new hplain hv h
  case restElements =>
    intro moves index span pattern es ihpattern ihes bound v new hplain hv h
    obtain ⟨rfl, u, hu, h⟩ := bindElements_rest h
    rw [Way.ofElements, Way.ofElements, List.append_nil]
    refine ihpattern bound u new (by simpa using hplain) (fun hkeeps => ?_) h
    rw [sem.follow_snoc, hv (sem.keepsMoves_snoc.mp hkeeps).1, Option.bind_some, move, hu]
  case element =>
    intro moves index e es hhole hrest ihe ihes bound v new hplain hv h
    rw [bindElements] at h
    · obtain ⟨u, hu, h⟩ := Option.bind_eq_some_iff.mp h
      obtain ⟨new₁, hnew₁, h⟩ := Option.bind_eq_some_iff.mp h
      obtain ⟨new₂, hnew₂, rfl⟩ := Option.map_eq_some_iff.mp h
      rw [Way.ofElements]
      · refine List.rel_append (ihe bound u new₁ (by simpa using hplain) (fun hkeeps => ?_) hnew₁)
          (ihes _ v new₂ hplain hv hnew₂)
        rw [sem.follow_snoc, hv (sem.keepsMoves_snoc.mp hkeeps).1, Option.bind_some, move, hu]
      all_goals assumption
    · assumption
    · intro span pattern he _
      exact hrest span pattern he
  case noProperties =>
    intro moves keys bound v ks new hplain hv hkeys h
    rw [bindProperties] at h
    rw [Way.ofProperties, ← Option.some.inj h]
    exact .nil
  case property =>
    intro moves keys computed span key value ps ihvalue ihps bound v ks new hplain hv hkeys h
    rw [bindProperties] at h
    obtain ⟨k, hk, h⟩ := Option.bind_eq_some_iff.mp h
    obtain ⟨u, hu, h⟩ := Option.bind_eq_some_iff.mp h
    obtain ⟨new₁, hnew₁, h⟩ := Option.bind_eq_some_iff.mp h
    obtain ⟨new₂, hnew₂, rfl⟩ := Option.map_eq_some_iff.mp h
    rw [Way.ofProperties]
    have hkey : (∀ e ∈ (Key.ofTree script computed key).expressions, sem.Keeps outer here names e) →
        sem.key here (.ofTree script computed key) = some k := fun hkeeps =>
      (key_scope hscope hkeeps bound).symm.trans hk
    refine List.rel_append (ihvalue bound u new₁ (by simpa using hplain) (fun hkeeps => ?_) hnew₁)
      (ihps _ v (ks ++ [k]) new₂ hplain hv (fun hkeeps => ?_) hnew₂)
    · obtain ⟨hmoves, hkeeps⟩ := sem.keepsMoves_snoc.mp hkeeps
      rw [sem.follow_snoc, hv hmoves, Option.bind_some, move, hkey hkeeps, Option.bind_some, hu]
    · simp only [List.flatMap_append, List.mem_append, or_imp, forall_and, List.flatMap_cons,
        List.flatMap_nil, List.append_nil] at hkeeps
      simp [List.mapM_append, hkeys hkeeps.1, hkey hkeeps.2]
  case restProperties =>
    intro moves keys span pattern ps ihpattern ihps bound v ks new hplain hv hkeys h
    obtain ⟨rfl, name, span', cs, u, rfl, hu, rfl⟩ := bindProperties_rest h
    rw [Way.ofProperties, Way.ofProperties, List.append_nil, Way.ofPattern]
    refine .cons ⟨rfl, fun hkeeps => ?_, ?_⟩ .nil
    · obtain ⟨hmoves, hkeeps⟩ := sem.keepsMoves_snoc.mp hkeeps
      rw [sem.follow_snoc, hv hmoves, Option.bind_some, move, hkeys hkeeps, Option.bind_some, hu]
    · intro done keys' rest heq
      rcases List.eq_nil_or_concat rest with rfl | ⟨rest, m, rfl⟩
      · rfl
      · -- what remains would stand among the steps before
        rw [List.concat_eq_append, ← List.cons_append, ← List.append_assoc] at heq
        have hmem : .others keys' ∈ moves := by simp [(List.append_inj' heq rfl).1]
        exact absurd hmem (hplain keys')
  case noProperty =>
    intro moves keys p ps hproperty hrest ih bound v ks new hplain hv hkeys h
    rw [bindProperties] at h
    · cases h
    · simp
    · intro computed span key value rest hp
      exact hproperty computed span key value (List.cons.inj hp).1
    · intro span name span' cs hp
      exact hrest span _ (List.cons.inj hp).1

end

theorem leads_destructure {script : String} {outer here : Scope V} {t : Tree} {item : V}
    {bound : List (String × V)} (h : sem.destructure outer script t item = some bound) :
    List.Forall₂ (Leads sem outer here t.boundNames item) (Way.ofPattern script [] t) bound := by
  have hscope : ∀ bound, ∀ name ∉ t.boundNames, inside outer t.boundNames bound name = outer name :=
    fun bound name hname => if_neg hname
  exact (leads_ways hscope item).1 [] t [] item bound (by simp) (fun _ => rfl) h

end Script.Semantics

end JsxTemplate
