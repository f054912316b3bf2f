import JsxTemplate.Proofs.Loop.Selector

/-!
# Expressions that depend on a key

An expression is taken to depend on the key of a loop alone if each of its names stands in an expression
with the text of the key. Then it refers to no other variables than such expressions do.

The texts are compared without their blanks, also where blanks matter: inside of a string, or between two
words. Nothing is asked of the receiver `this`, which is no name.
-/

namespace JsxTemplate.Loop

open Script

/-- The variable of a reference is one that a part of the tree refers to whose text is that of the key. -/
def RefersByKey (script key : String) (t : Script.Tree) (r : Reference) : Prop :=
  ∃ n ∈ t.nodes, IsKey script key (false, n) ∧
    ∃ introduced, ∃ r' ∈ n.references introduced, r'.name = r.name ∧ r'.start = r.start ∧ r'.stop = r.stop

theorem RefersByKey.of_subset {script key : String} {t t' : Script.Tree} {r : Reference}
    (h : RefersByKey script key t r) (hnodes : t.nodes ⊆ t'.nodes) : RefersByKey script key t' r := by
  obtain ⟨n, hn, hkey, hr⟩ := h
  exact ⟨n, hnodes hn, hkey, hr⟩

theorem nodes_subset_of_mem {kind : Kind} {span : Span} {cs : List Script.Tree} {c : Script.Tree}
    (hc : c ∈ cs) : c.nodes ⊆ (Script.Tree.node kind span cs).nodes := by
  rw [Script.Tree.nodes]
  refine List.subset_cons_of_subset _ ?_
  induction cs with
  | nil => cases hc
  | cons c' cs ih =>
    rw [Script.Tree.nodesOf]
    rcases List.mem_cons.mp hc with rfl | hc
    · exact List.subset_append_left _ _
    · exact List.subset_append_of_subset_right _ (ih hc)

theorem onlyKeyIn_eq_true {script key : String} {place : Bool} {ts : List Script.Tree} :
    onlyKeyIn script key place ts = true ↔ ∀ t ∈ ts, onlyKey script key place t = true := by
  induction ts with
  | nil => simp [onlyKeyIn]
  | cons t ts ih => simp [onlyKeyIn, ih]

/-- Either a tree is an expression with the text of the key, or it is no name and none of its children has
names outside of such expressions. -/
theorem onlyKey_cases {script key : String} {place : Bool} {kind : Kind} {span : Span}
    {cs : List Script.Tree} (h : onlyKey script key place (.node kind span cs) = true) :
    IsKey script key (false, .node kind span cs) ∨
      (∀ name, kind ≠ .reference name) ∧ ∀ c ∈ cs, onlyKey script key kind.holdsPlaces c = true := by
  unfold onlyKey at h
  split at h
  · next hkey =>
    simp only [Bool.and_eq_true, beq_iff_eq] at hkey
    exact .inl ⟨rfl, hkey.1.2, hkey.2⟩
  · split at h
    · cases h
    · cases h
    · next hname _ => exact .inr ⟨hname, onlyKeyIn_eq_true.mp h⟩

mutual

theorem refersByKey_of_onlyKey {script key : String} :
    ∀ {t : Script.Tree} {place : Bool}, onlyKey script key place t = true →
      ∀ {introduced : List String} {r : Reference}, r ∈ t.references introduced → RefersByKey script key t r
  | .node kind span cs, place, h, introduced, r, hr => by
    rcases onlyKey_cases h with hkey | ⟨hname, hcs⟩
    · exact ⟨_, Script.Tree.self_mem_nodes _, hkey, introduced, r, hr, rfl, rfl, rfl⟩
    · have hall : ∀ {introduced'}, r ∈ Script.Tree.referencesOf introduced' cs →
          RefersByKey script key (.node kind span cs) r :=
        refersByKey_of_onlyKeyIn hcs fun _ => nodes_subset_of_mem
      unfold Script.Tree.references at hr
      split at hr
      · exact absurd rfl (hname _)
      · split at hr
        · next _ name span' _ =>
          -- The variable is the value of the property, which is no child of another expression.
          have hvalue := onlyKey_cases (hcs _ (List.mem_cons_of_mem _ List.mem_cons_self))
          obtain hkey | ⟨hno, -⟩ := hvalue
          · have hr' : r = ⟨name, span'.start, span'.stop, true⟩ := by
              unfold Script.Tree.referenceTo at hr
              split at hr
              · cases hr
              · exact List.mem_singleton.mp hr
            refine ⟨_, nodes_subset_of_mem (List.mem_cons_of_mem _ List.mem_cons_self)
              (Script.Tree.self_mem_nodes _), hkey, [], ⟨name, span'.start, span'.stop, false⟩, ?_, ?_⟩
            · rw [Script.Tree.references]
              exact List.mem_singleton_self _
            · rw [hr']
              exact ⟨rfl, rfl, rfl⟩
          · exact absurd rfl (hno name)
        · exact hall hr
      · exact hall hr
      · exact hall hr
      · exact hall hr

theorem refersByKey_of_onlyKeyIn {script key : String} {t : Script.Tree} :
    ∀ {ts : List Script.Tree} {place : Bool}, (∀ c ∈ ts, onlyKey script key place c = true) →
      (∀ c ∈ ts, c.nodes ⊆ t.nodes) →
      ∀ {introduced : List String} {r : Reference}, r ∈ Script.Tree.referencesOf introduced ts →
        RefersByKey script key t r
  | [], _, _, _, _, _, hr => by simp [Script.Tree.referencesOf] at hr
  | c :: ts, place, h, hnodes, introduced, r, hr => by
    rw [Script.Tree.referencesOf] at hr
    rcases List.mem_append.mp hr with hr | hr
    · exact (refersByKey_of_onlyKey (h c List.mem_cons_self) hr).of_subset (hnodes c List.mem_cons_self)
    · exact refersByKey_of_onlyKeyIn (fun c hc => h c (List.mem_cons_of_mem _ hc))
        (fun c hc => hnodes c (List.mem_cons_of_mem _ hc)) hr

end

theorem withoutBlanks_eq_self {s : String} (h : ∀ c ∈ s.toList, Text.isBlank c = false) :
    Text.withoutBlanks s = s := by
  rw [Text.withoutBlanks, List.filter_eq_self.mpr (by simpa using h), String.ofList_toList]

/-- A script is taken to depend on the key alone exactly if it is an expression in which each name stands
in an expression that is the key up to blanks. Then every variable to which it refers is one to which such
an expression refers. If neither that expression nor the key has blanks, they are the same text. -/
theorem names_in_key_iff_isKeyOnly (script key : String) :
    (isKeyOnly script key = true ↔
      ∃ t, readWhole script = some t ∧
        ∀ path ∈ t.namePaths false, ∃ x ∈ path, IsKey script (Text.withoutBlanks key) x) ∧
    (isKeyOnly script key = true → ∀ t, readWhole script = some t →
      ∀ r ∈ t.references [], RefersByKey script (Text.withoutBlanks key) t r) ∧
    ∀ x, IsKey script (Text.withoutBlanks key) x →
      (∀ c ∈ (Text.slice script x.2.span.start x.2.span.stop).toList, Text.isBlank c = false) →
      (∀ c ∈ key.toList, Text.isBlank c = false) →
      Text.slice script x.2.span.start x.2.span.stop = key := by
  refine ⟨isBuiltFrom_iff, fun h t ht r hr => ?_, fun x hx hscript hkey => ?_⟩
  · rw [isKeyOnly, isBuiltFrom, ht] at h
    exact refersByKey_of_onlyKey h hr
  · obtain ⟨-, -, htext⟩ := hx
    rw [withoutBlanks_eq_self hscript, withoutBlanks_eq_self hkey] at htext
    exact htext

/-- The expression `` `${row["id"]}px` `` depends on the key `row["id"]` alone. -/
theorem names_in_key_iff_isKeyOnly_template :
    let script := "`$\x7brow[\"id\"]\x7dpx`"
    isKeyOnly script "row[\"id\"]" = true ∧
    ∀ t, readWhole script = some t →
      ∀ r ∈ t.references [], RefersByKey script (Text.withoutBlanks "row[\"id\"]") t r := by
  have h : isKeyOnly "`$\x7brow[\"id\"]\x7dpx`" "row[\"id\"]" = true := by decide +kernel
  exact ⟨h, (names_in_key_iff_isKeyOnly _ _).2.1 h⟩

/-- Blanks that matter are left out of account: a property with a blank in its name is taken for one
without it, and two words for one. The receiver is taken for a literal. -/
theorem isKeyOnly_ignores_blanks_in_tokens :
    isKeyOnly "row[\"ab\"]" "row[\"a b\"]" = true ∧
    (readWhole "row[\"ab\"]").map (fun t => t.nodes.map Script.Tree.kind) =
      some [.member, .reference "row", .string "ab"] ∧
    (readWhole "row[\"a b\"]").map (fun t => t.nodes.map Script.Tree.kind) =
      some [.member, .reference "row", .string "a b"] ∧
    isKeyOnly "typeofx" "typeof x" = true ∧ isKeyOnly "this" "row.id" = true := by
  decide +kernel

end JsxTemplate.Loop
