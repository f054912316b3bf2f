import JsxTemplate.Proofs.Lowering.PlanRules
import JsxTemplate.Proofs.Template.Directives
import Mathlib.Data.List.Forall2
import Mathlib.Data.List.Induction

/-!
# Conditions and their branches

The elements with further conditions behind the first branch of a condition are attached to it. Which
element joins which condition (`Joins`) is said in words of the children of a node: an element that is
meant to join one does so if the child before it looks joinable and the last node with an operation stands
for an open condition. The plans of the children hold exactly the conditions that arise in this way
(`Chained`), as a child more keeps this (`Chained.append`, `Chained.attach`).
-/

namespace JsxTemplate

variable {plans : List NodePlan} {into : Option Insertion} {children : List Visited} {b : Branch}
  {i j : Nat} {d : Directive} {n : NodePlan}

/-! ## The links of a condition -/

namespace Branch

/-- The conditions of a branch and of those attached to it, with what they render. What is rendered if no
condition holds comes last, without a condition. -/
def links : Branch → List (Option Expression × Block)
  | ⟨_, condition, positive, some (.branch next), _⟩ => (some condition, positive) :: next.links
  | ⟨_, condition, positive, some (.block block), _⟩ => [(some condition, positive), (none, block)]
  | ⟨_, condition, positive, none, _⟩ => [(some condition, positive)]

theorem isOpen_iff (b : Branch) : b.isOpen = true ↔ ∀ l ∈ b.links, l.1.isSome = true := by
  fun_induction links b with
  | case1 _ _ _ next _ ih => simp [isOpen, ih]
  | case2 => simp [isOpen]
  | case3 => simp [isOpen]

theorem links_attach (h : b.isOpen = true) (id : Nat) (condition : Option Expression) (block : Block)
    (once : Bool) :
    (b.attach (Otherwise.ofBranch id condition block once)).links = b.links ++ [(condition, block)] := by
  fun_induction attach (Otherwise.ofBranch id condition block once) b with
  | case1 _ _ _ next _ ih =>
    rw [links, ih h, links]
    rfl
  | case2 id' condition' positive negative once' hnot =>
    cases negative with
    | none => cases condition <;> rfl
    | some negative =>
      cases negative with
      | branch next => exact absurd rfl (hnot next)
      | block block' => cases h

end Branch

/-! ## The last condition -/

def IdleAt (plans : List NodePlan) (k : Nat) : Prop := plans[k]?.bind NodePlan.operation = none

theorem idleAt_append {k : Nat} (hk : k < plans.length) (n : NodePlan) :
    IdleAt (plans ++ [n]) k ↔ IdleAt plans k := by
  rw [IdleAt, IdleAt, List.getElem?_append_left hk]

theorem idleAt_length (plans : List NodePlan) (n : NodePlan) :
    IdleAt (plans ++ [n]) plans.length ↔ n.operation = none := by
  simp [IdleAt]

theorem idleAt_of_le {k : Nat} (hk : plans.length ≤ k) : IdleAt plans k := by
  rw [IdleAt, List.getElem?_eq_none hk]
  rfl

theorem lastBranch?_eq_some (h : lastBranch? plans.reverse = some b) (f : Branch → Branch) :
    ∃ i n into, plans[i]? = some n ∧ n.operation = some (.branch b into) ∧ (∀ k, i < k → IdleAt plans k) ∧
      (mapLastBranch f plans.reverse).reverse = plans.set i (n.withOperation (.branch (f b) into)) := by
  induction plans using List.reverseRecOn with
  | nil => cases h
  | append_singleton plans n ih =>
    rw [List.reverse_append, List.reverse_singleton, List.singleton_append] at h ⊢
    rcases hop : n.operation with _ | op
    · simp only [lastBranch?, hop] at h
      obtain ⟨i, m, into, hi, hm, hidle, hmap⟩ := ih h
      have hlt := (List.getElem?_eq_some_iff.mp hi).1
      refine ⟨i, m, into, List.getElem?_append_left hlt ▸ hi, hm, fun k hk => ?_, ?_⟩
      · rcases Nat.lt_trichotomy k plans.length with hk' | rfl | hk'
        · exact (idleAt_append hk' n).mpr (hidle k hk)
        · exact (idleAt_length plans n).mpr hop
        · exact idleAt_of_le (by rw [List.length_append, List.length_singleton]; exact hk')
      · simp only [mapLastBranch, hop, List.reverse_cons, hmap, List.set_append_left _ _ hlt]
    · cases op with
      | branch b' into =>
        simp only [lastBranch?, hop, Option.some.injEq] at h
        subst h
        refine ⟨plans.length, n, into, by simp, hop, fun k hk => idleAt_of_le ?_, ?_⟩
        · rw [List.length_append, List.length_singleton]
          exact hk
        · simp [mapLastBranch, hop, NodePlan.withOperation]
      | _ => simp [lastBranch?, hop] at h

theorem lastBranch?_of_idle {i : Nat} (hi : plans[i]? = some n)
    (hn : n.operation = some (.branch b into)) (hidle : ∀ k, i < k → IdleAt plans k) :
    lastBranch? plans.reverse = some b := by
  induction plans using List.reverseRecOn with
  | nil => cases hi
  | append_singleton plans m ih =>
    have hlt := (List.getElem?_eq_some_iff.mp hi).1
    rw [List.length_append, List.length_singleton] at hlt
    rw [List.reverse_append, List.reverse_singleton, List.singleton_append]
    rcases Nat.lt_or_ge i plans.length with hlt' | hge
    · have hm := (idleAt_length plans m).mp (hidle _ hlt')
      rw [List.getElem?_append_left hlt'] at hi
      have hrest := ih hi fun k hk => by
        rcases Nat.lt_or_ge k plans.length with hk' | hk'
        · exact (idleAt_append hk' m).mp (hidle k hk)
        · exact idleAt_of_le hk'
      simpa only [lastBranch?, hm] using hrest
    · obtain rfl : i = plans.length := by omega
      rw [List.getElem?_append_right (Nat.le_refl _), Nat.sub_self, List.getElem?_cons_zero,
        Option.some.injEq] at hi
      subst hi
      simp only [lastBranch?, hn]

/-! ## Which elements join a condition -/

theorem Lower.conditionDirective?_name {t : Tag} (h : conditionDirective? t = some d) :
    d.name = "else" ∨ (d.name = "if" ∨ d.name = "else-if") ∧ t.hasDirective ["if", "else-if"] = true := by
  have hlooks {name : String} (hd : t.directive? name = some d) (hmem : name ∈ ["if", "else-if"]) :
      t.hasDirective ["if", "else-if"] = true := Tag.hasDirective_of_directive hd (by decide) hmem
  rw [conditionDirective?, Option.or_eq_some_iff, Option.or_eq_some_iff] at h
  rcases h with (h | ⟨-, h⟩) | ⟨-, h⟩
  · exact Or.inr ⟨Or.inl (Tag.name_of_directive h), hlooks h (by simp)⟩
  · exact Or.inr ⟨Or.inr (Tag.name_of_directive h), hlooks h (by simp)⟩
  · exact Or.inl (Tag.name_of_directive h)

namespace Visited

variable {v : Visited}

/-- The directive by which an element takes part in a condition. A `template` for a slot takes no part. -/
def condition? (v : Visited) : Option Directive :=
  v.tag?.bind fun tag => if tag.isTemplateSlot then none else Lower.conditionDirective? tag

def startsCondition (v : Visited) : Bool := v.condition?.any fun d => d.name == "if"

def joinsCondition (v : Visited) : Bool := v.condition?.any fun d => d.name != "if"

def closesCondition (v : Visited) : Bool := v.condition?.any fun d => d.name == "else"

def looksJoinable (v : Visited) : Bool := v.tag?.any fun tag => tag.hasDirective ["if", "else-if"]

theorem joinsCondition_of_closes (h : v.closesCondition = true) : v.joinsCondition = true := by
  rw [closesCondition, Option.any_eq_true] at h
  obtain ⟨d, hd, hname⟩ := h
  rw [joinsCondition, hd, Option.any_some, eq_of_beq hname]
  rfl

theorem joinsCondition_of_starts (h : v.startsCondition = true) : v.joinsCondition = false := by
  rw [startsCondition, Option.any_eq_true] at h
  obtain ⟨d, hd, hname⟩ := h
  rw [joinsCondition, hd, Option.any_some, eq_of_beq hname]
  rfl

theorem looksJoinable_of_condition (h : v.condition? = some d) (hname : d.name ≠ "else") :
    v.looksJoinable = true := by
  obtain ⟨tag, htag, hd⟩ := Option.bind_eq_some_iff.mp h
  split at hd
  · cases hd
  · rcases Lower.conditionDirective?_name hd with helse | ⟨-, hlooks⟩
    · exact absurd helse hname
    · rw [looksJoinable, htag, Option.any_some, hlooks]

end Visited

/-- Whether a child, given by its index `j`, joins the condition of another: it is meant to, the one before
it looks joinable, and no node in between has an operation or has closed the condition. -/
structure Joins (children : List Visited) (plans : List NodePlan) (i j : Nat) : Prop where
  lt : i < j
  starts : children[i]?.any Visited.startsCondition = true
  joins : children[j]?.any Visited.joinsCondition = true
  looks : children[j - 1]?.any Visited.looksJoinable = true
  idle : ∀ k, i < k → k < j → IdleAt plans k
  isOpen : ∀ k, i < k → k < j → children[k]?.any Visited.closesCondition = true →
    children[k - 1]?.any Visited.looksJoinable = false

theorem Joins.of_idle {plans plans' : List NodePlan} (h : Joins children plans i j)
    (hidle : ∀ k < j, IdleAt plans k → IdleAt plans' k) : Joins children plans' i j :=
  { h with idle := fun k hik hkj => hidle k hkj (h.idle k hik hkj) }

theorem Joins.of_forall (hij : i < j) (hstarts : children[i]?.any Visited.startsCondition = true)
    (hjoins : children[j]?.any Visited.joinsCondition = true)
    (hlooks : children[j - 1]?.any Visited.looksJoinable = true)
    (hidle : ∀ k, i < k → k < j → IdleAt plans k)
    (hnone : ∀ k, k < j → Joins children plans i k → children[k]?.any Visited.closesCondition = false) :
    Joins children plans i j := by
  refine ⟨hij, hstarts, hjoins, hlooks, hidle, ?_⟩
  -- The first element that would close the condition joins it.
  intro k
  induction k using Nat.strongRecOn with
  | ind k ih =>
    intro hik hkj hcloses
    by_contra hlooks'
    rw [Bool.not_eq_false] at hlooks'
    have hjoins' : children[k]?.any Visited.joinsCondition = true := by
      rw [Option.any_eq_true] at hcloses ⊢
      obtain ⟨v, hv, hv'⟩ := hcloses
      exact ⟨v, hv, Visited.joinsCondition_of_closes hv'⟩
    have hjoin : Joins children plans i k :=
      ⟨hik, hstarts, hjoins', hlooks', fun m hm hmk => hidle m hm (by omega),
        fun m hm hmk => ih m hmk hm (by omega)⟩
    rw [hnone k hkj hjoin] at hcloses
    cases hcloses

/-! ## The conditions among the children of a node -/

/-- The condition that a node stands for, and whether it has no operation at all. -/
def NodePlan.makes (n : NodePlan) : Option Branch × Bool := (n.branch?, n.operation.isNone)

theorem idleAt_iff (plans : List NodePlan) (k : Nat) :
    IdleAt plans k ↔ (plans[k]?.map NodePlan.makes).all Prod.snd = true := by
  rw [IdleAt]
  cases plans[k]? <;> simp [NodePlan.makes]

theorem Joins.congr {plans plans' : List NodePlan} (hidle : ∀ k < j, IdleAt plans k ↔ IdleAt plans' k) :
    Joins children plans i j ↔ Joins children plans' i j :=
  ⟨fun h => h.of_idle fun k hk => (hidle k hk).mp, fun h => h.of_idle fun k hk => (hidle k hk).mpr⟩

theorem forall₂_mem_right {α β : Type} {R : α → β → Prop} {xs : List α} {ys : List β}
    (h : List.Forall₂ R xs ys) {y : β} (hy : y ∈ ys) : ∃ x ∈ xs, R x y := by
  induction h with
  | nil => simp at hy
  | cons hr _ ih =>
    rcases List.mem_cons.mp hy with rfl | hy
    · exact ⟨_, List.mem_cons_self, hr⟩
    · obtain ⟨x, hx, hxy⟩ := ih hy
      exact ⟨x, List.mem_cons_of_mem _ hx, hxy⟩

theorem forall₂_mem_left {α β : Type} {R : α → β → Prop} {xs : List α} {ys : List β}
    (h : List.Forall₂ R xs ys) {x : α} (hx : x ∈ xs) : ∃ y ∈ ys, R x y :=
  forall₂_mem_right (R := fun y x => R x y) h.flip hx

section

variable (children : List Visited) (IsLink : Nat → Option Expression × Block → Prop)

/-- Whether some links are those of the condition that starts at a child: its own, and those of the children
that join it, in order. -/
def LinksFrom (plans : List NodePlan) (i : Nat) (links : List (Option Expression × Block)) : Prop :=
  ∃ js, js.Pairwise (· < ·) ∧ (∀ j, j ∈ js ↔ j < plans.length ∧ Joins children plans i j) ∧
    List.Forall₂ IsLink (i :: js) links

/-- Whether the plans of the first children hold exactly the conditions that start there. -/
structure Chained (plans : List NodePlan) : Prop where
  starts : ∀ (i : Nat) (n : NodePlan), plans[i]? = some n → children[i]?.any Visited.startsCondition = true →
    ∃ b, n.branch? = some b ∧ LinksFrom children IsLink plans i b.links
  others : ∀ (i : Nat) (n : NodePlan), plans[i]? = some n →
    children[i]?.any Visited.startsCondition = false → n.branch? = none
  joined : ∀ i j, Joins children plans i j → IdleAt plans j

end

section

variable {children : List Visited} {IsLink : Nat → Option Expression × Block → Prop}
  {plans plans' : List NodePlan} {i : Nat} {links : List (Option Expression × Block)}

namespace LinksFrom

theorem keep (h : LinksFrom children IsLink plans i links) (hlength : plans'.length = plans.length + 1)
    (hidle : ∀ k < plans.length, IdleAt plans k ↔ IdleAt plans' k)
    (hnot : ¬ Joins children plans i plans.length) : LinksFrom children IsLink plans' i links := by
  obtain ⟨js, hsorted, hjs, hlinks⟩ := h
  refine ⟨js, hsorted, fun j => ?_, hlinks⟩
  rw [hjs, hlength]
  constructor
  · rintro ⟨hj, hjoins⟩
    exact ⟨by omega, (Joins.congr fun k hk => hidle k (by omega)).mp hjoins⟩
  · rintro ⟨hj, hjoins⟩
    have hjoins' := (Joins.congr fun k hk => hidle k (by omega)).mpr hjoins
    rcases Nat.lt_or_ge j plans.length with hlt | hge
    · exact ⟨hlt, hjoins'⟩
    · obtain rfl : j = plans.length := by omega
      exact absurd hjoins' hnot

theorem snoc (h : LinksFrom children IsLink plans i links) (hlength : plans'.length = plans.length + 1)
    (hidle : ∀ k < plans.length, IdleAt plans k ↔ IdleAt plans' k)
    (hjoins : Joins children plans i plans.length) {l : Option Expression × Block}
    (hl : IsLink plans.length l) : LinksFrom children IsLink plans' i (links ++ [l]) := by
  obtain ⟨js, hsorted, hjs, hlinks⟩ := h
  refine ⟨js ++ [plans.length], ?_, fun j => ?_, List.rel_append hlinks (.cons hl .nil)⟩
  · refine List.pairwise_append.mpr ⟨hsorted, List.pairwise_singleton _ _, fun j hj k hk => ?_⟩
    rw [List.mem_singleton.mp hk]
    exact ((hjs j).mp hj).1
  · rw [List.mem_append, List.mem_singleton, hjs, hlength]
    constructor
    · rintro (⟨hj, hjoins'⟩ | rfl)
      · exact ⟨by omega, (Joins.congr fun k hk => hidle k (by omega)).mp hjoins'⟩
      · exact ⟨by omega, (Joins.congr hidle).mp hjoins⟩
    · rintro ⟨hj, hjoins'⟩
      rcases Nat.lt_or_ge j plans.length with hlt | hge
      · exact Or.inl ⟨hlt, (Joins.congr fun k hk => hidle k (by omega)).mpr hjoins'⟩
      · exact Or.inr (by omega)

end LinksFrom

/-- Whether the plans of one child more hold the conditions that they should, and the nodes before it have
an operation if they had one. -/
structure Continues (children : List Visited) (IsLink : Nat → Option Expression × Block → Prop)
    (plans plans' : List NodePlan) : Prop where
  length : plans'.length = plans.length + 1
  idle : ∀ k < plans.length, IdleAt plans k ↔ IdleAt plans' k
  chained : Chained children IsLink plans'

namespace Chained

theorem nil : Chained children IsLink [] where
  starts := by simp
  others := by simp
  joined := fun _ _ _ => idleAt_of_le (Nat.zero_le _)

theorem not_idle (h : Chained children IsLink plans) (hi : i < plans.length)
    (hstarts : children[i]?.any Visited.startsCondition = true) : ¬ IdleAt plans i := by
  intro hidle
  have hn := List.getElem?_eq_getElem hi
  obtain ⟨b, hb, -⟩ := h.starts i _ hn hstarts
  rw [IdleAt, hn, Option.bind_some] at hidle
  rw [NodePlan.branch?, hidle] at hb
  cases hb

theorem unique (h : Chained children IsLink plans) {j i' j' : Nat} (hi : i < plans.length)
    (hi' : i' < plans.length) (hjoins : Joins children plans i j) (hjoins' : Joins children plans i' j')
    (hij' : i < j') (hi'j : i' < j) : i = i' := by
  rcases Nat.lt_trichotomy i i' with hii | hii | hii
  · exact absurd (hjoins.idle i' hii hi'j) (h.not_idle hi' hjoins'.starts)
  · exact hii
  · exact absurd (hjoins'.idle i hii hij') (h.not_idle hi hjoins.starts)

theorem append (h : Chained children IsLink plans) (hnot : ∀ i, ¬ Joins children plans i plans.length)
    (hstarts : children[plans.length]?.any Visited.startsCondition = true → ∃ b l, n.branch? = some b ∧ b.links = [l] ∧ IsLink plans.length l)
    (hother : children[plans.length]?.any Visited.startsCondition = false → n.branch? = none) :
    Continues children IsLink plans (plans ++ [n]) := by
  have hlength : (plans ++ [n]).length = plans.length + 1 := by simp
  have hidle : ∀ k < plans.length, IdleAt plans k ↔ IdleAt (plans ++ [n]) k := fun k hk =>
    (idleAt_append hk n).symm
  have hcases : ∀ {i : Nat} {m : NodePlan}, (plans ++ [n])[i]? = some m →
      plans[i]? = some m ∨ i = plans.length ∧ m = n := by
    intro i m hm
    rcases Nat.lt_or_ge i plans.length with hlt | hge
    · exact Or.inl (List.getElem?_append_left hlt ▸ hm)
    · rw [List.getElem?_append_right hge, List.getElem?_singleton] at hm
      split at hm
      · exact Or.inr ⟨by omega, (Option.some.inj hm).symm⟩
      · cases hm
  refine ⟨hlength, hidle, fun i m hm hi => ?_, fun i m hm hi => ?_, fun i j hjoins => ?_⟩
  · rcases hcases hm with hm | ⟨rfl, rfl⟩
    · obtain ⟨b, hb, hlinks⟩ := h.starts i m hm hi
      exact ⟨b, hb, hlinks.keep hlength hidle (hnot i)⟩
    · obtain ⟨b, l, hb, hl, hlink⟩ := hstarts hi
      refine ⟨b, hb, [], .nil, fun j => ?_, hl ▸ .cons hlink .nil⟩
      simp only [List.not_mem_nil, false_iff, not_and]
      intro hj hjoins
      have hlt := hjoins.lt
      omega
  · rcases hcases hm with hm | ⟨rfl, rfl⟩
    · exact h.others i m hm hi
    · exact hother hi
  · rcases Nat.lt_trichotomy j plans.length with hlt | rfl | hgt
    · rw [← hidle j hlt]
      exact h.joined i j ((Joins.congr fun k hk => hidle k (by omega)).mpr hjoins)
    · exact absurd ((Joins.congr hidle).mpr hjoins) (hnot i)
    · exact idleAt_of_le (by omega)

theorem attach (h : Chained children IsLink plans) {i : Nat} {m n : NodePlan} (hi : plans[i]? = some m)
    (hm : m.operation = some (.branch b into)) (hopen : b.isOpen = true)
    (hjoins : Joins children plans i plans.length) (hn : n.operation = none) {id : Nat}
    {condition : Option Expression} {block : Block} {once : Bool}
    (hlink : IsLink plans.length (condition, block)) :
    Continues children IsLink plans
      (plans.set i (m.withOperation (.branch (b.attach (.ofBranch id condition block once)) into)) ++ [n]) := by
  let b' := b.attach (.ofBranch id condition block once)
  generalize hplans' : plans.set i (m.withOperation (.branch b' into)) = plans'
  have hlt := (List.getElem?_eq_some_iff.mp hi).1
  have hlength : plans'.length = plans.length := by rw [← hplans', List.length_set]
  have hlength' : (plans' ++ [n]).length = plans.length + 1 := by simp [hlength]
  have hsame : ∀ k, k ≠ i → plans'[k]? = plans[k]? := fun k hne => by
    rw [← hplans', List.getElem?_set_ne (Ne.symm hne)]
  have hat : plans'[i]? = some (m.withOperation (.branch b' into)) := by
    rw [← hplans', List.getElem?_set_self hlt]
  have hidle : ∀ k < plans.length, IdleAt plans k ↔ IdleAt (plans' ++ [n]) k := by
    intro k hk
    rw [idleAt_append (hlength ▸ hk)]
    by_cases hne : k = i
    · rw [hne, IdleAt, IdleAt, hi, hat, Option.bind_some, Option.bind_some, hm]
      simp [NodePlan.withOperation]
    · rw [IdleAt, IdleAt, hsame k hne]
  have hjoined : children[plans.length]?.any Visited.startsCondition = false := by
    obtain ⟨v, hv, hv'⟩ := (Option.any_eq_true _ _).mp hjoins.joins
    rw [hv, Option.any_some, Bool.eq_false_iff]
    intro hstarts
    rw [Visited.joinsCondition_of_starts hstarts] at hv'
    cases hv'
  have hcases : ∀ {k : Nat} {p : NodePlan}, (plans' ++ [n])[k]? = some p →
      k ≠ i ∧ plans[k]? = some p ∨ k = i ∧ p = m.withOperation (.branch b' into) ∨
        k = plans.length ∧ p = n := by
    intro k p hp
    rcases Nat.lt_or_ge k plans'.length with hk | hk
    · rw [List.getElem?_append_left hk] at hp
      by_cases hne : k = i
      · subst hne
        exact Or.inr (Or.inl ⟨rfl, (Option.some.inj (hat.symm.trans hp)).symm⟩)
      · exact Or.inl ⟨hne, hsame k hne ▸ hp⟩
    · rw [List.getElem?_append_right hk, List.getElem?_singleton] at hp
      split at hp
      · exact Or.inr (Or.inr ⟨by omega, (Option.some.inj hp).symm⟩)
      · cases hp
  refine ⟨hlength', hidle, fun k p hp hk => ?_, fun k p hp hk => ?_, fun k j hkj => ?_⟩
  · rcases hcases hp with ⟨hne, hp⟩ | ⟨rfl, rfl⟩ | ⟨rfl, rfl⟩
    · obtain ⟨b, hb, hlinks⟩ := h.starts k p hp hk
      refine ⟨b, hb, hlinks.keep hlength' hidle fun hjoins' => hne ?_⟩
      exact h.unique hjoins'.lt hlt hjoins' hjoins hjoins'.lt hlt
    · obtain ⟨b₀, hb₀, hlinks⟩ := h.starts k m hi hk
      rw [NodePlan.branch?, hm, Option.some.injEq] at hb₀
      subst hb₀
      refine ⟨b', rfl, ?_⟩
      rw [Branch.links_attach hopen]
      exact hlinks.snoc hlength' hidle hjoins hlink
    · rw [hjoined] at hk
      cases hk
  · rcases hcases hp with ⟨hne, hp⟩ | ⟨rfl, rfl⟩ | ⟨rfl, rfl⟩
    · exact h.others k p hp hk
    · rw [hjoins.starts] at hk
      cases hk
    · rw [NodePlan.branch?, hn]
  · rcases Nat.lt_trichotomy j plans.length with hj | rfl | hj
    · rw [← hidle j hj]
      exact h.joined k j ((Joins.congr fun k hk => hidle k (by omega)).mpr hkj)
    · rw [← hlength, idleAt_length]
      exact hn
    · exact idleAt_of_le (by omega)

section

variable (h : Chained children IsLink plans)
  (hlink : ∀ k l, IsLink k l → (l.1 = none ↔ children[k]?.any Visited.closesCondition = true))

include h hlink

theorem last_of_joins (hjoins : Joins children plans i plans.length) :
    ∃ b, lastBranch? plans.reverse = some b ∧ b.isOpen = true := by
  have hlt := hjoins.lt
  obtain ⟨n, hn⟩ : ∃ n, plans[i]? = some n := ⟨_, List.getElem?_eq_getElem hlt⟩
  obtain ⟨b, hb, js, -, hjs, hlinks⟩ := h.starts i n hn hjoins.starts
  obtain ⟨into, hop⟩ : ∃ into, n.operation = some (.branch b into) := by
    rw [NodePlan.branch?] at hb
    split at hb
    · next into hop => exact ⟨into, Option.some.inj hb ▸ hop⟩
    · cases hb
  refine ⟨b, lastBranch?_of_idle hn hop fun k hk => ?_, (Branch.isOpen_iff b).mpr fun l hl => ?_⟩
  · rcases Nat.lt_or_ge k plans.length with hk' | hk'
    · exact hjoins.idle k hk hk'
    · exact idleAt_of_le hk'
  · rw [Option.isSome_iff_ne_none]
    intro hnone
    obtain ⟨k, hk, hkl⟩ := forall₂_mem_right hlinks hl
    have hcloses := (hlink k l hkl).mp hnone
    rcases List.mem_cons.mp hk with rfl | hk
    · obtain ⟨v, hv, hstarts⟩ := (Option.any_eq_true _ _).mp hjoins.starts
      rw [hv, Option.any_some] at hcloses
      have hjoins' := Visited.joinsCondition_of_closes hcloses
      rw [Visited.joinsCondition_of_starts hstarts] at hjoins'
      cases hjoins'
    · obtain ⟨hk, hjoins'⟩ := (hjs k).mp hk
      have hlooks := hjoins.isOpen k hjoins'.lt hk hcloses
      rw [hjoins'.looks] at hlooks
      cases hlooks

theorem joins_of_last (hn : plans[i]? = some n) (hop : n.operation = some (.branch b into))
    (hopen : b.isOpen = true) (hidle : ∀ k, i < k → IdleAt plans k)
    (hjoins : children[plans.length]?.any Visited.joinsCondition = true)
    (hlooks : children[plans.length - 1]?.any Visited.looksJoinable = true) :
    Joins children plans i plans.length := by
  have hlt := (List.getElem?_eq_some_iff.mp hn).1
  have hbranch : n.branch? = some b := by rw [NodePlan.branch?, hop]
  have hstarts : children[i]?.any Visited.startsCondition = true := by
    by_contra hnot
    rw [h.others i n hn (Bool.not_eq_true _ ▸ hnot)] at hbranch
    cases hbranch
  obtain ⟨b', hb', js, -, hjs, hlinks⟩ := h.starts i n hn hstarts
  obtain rfl := Option.some.inj (hbranch.symm.trans hb')
  refine Joins.of_forall hlt hstarts hjoins hlooks (fun k hk _ => hidle k hk) fun k hk hjoins' => ?_
  obtain ⟨l, hl, hkl⟩ := forall₂_mem_left hlinks (List.mem_cons_of_mem _ ((hjs k).mpr ⟨hk, hjoins'⟩))
  have hsome := (Branch.isOpen_iff b).mp hopen l hl
  rw [Bool.eq_false_iff]
  intro hcloses
  rw [(hlink k l hkl).mpr hcloses] at hsome
  cases hsome

end

theorem of_makes (h : Chained children IsLink plans)
    (hmakes : plans'.map NodePlan.makes = plans.map NodePlan.makes) : Chained children IsLink plans' := by
  have hat : ∀ k : Nat, plans'[k]?.map NodePlan.makes = plans[k]?.map NodePlan.makes := fun k => by
    rw [← List.getElem?_map, hmakes, List.getElem?_map]
  have hlength : plans'.length = plans.length := by simpa using congrArg List.length hmakes
  have hidle : ∀ k, IdleAt plans k ↔ IdleAt plans' k := fun k => by rw [idleAt_iff, idleAt_iff, hat]
  have hjoins : ∀ i j, Joins children plans i j ↔ Joins children plans' i j := fun i j =>
    Joins.congr fun k _ => hidle k
  have hbranch : ∀ {i : Nat} {n' : NodePlan}, plans'[i]? = some n' →
      ∃ n, plans[i]? = some n ∧ n.branch? = n'.branch? := by
    intro i n' hn'
    have hi := hat i
    rw [hn'] at hi
    obtain ⟨n, hn, hmakes⟩ := Option.map_eq_some_iff.mp hi.symm
    exact ⟨n, hn, congrArg Prod.fst hmakes⟩
  refine ⟨fun i n' hn' hi => ?_, fun i n' hn' hi => ?_, fun i j hj => ?_⟩
  · obtain ⟨n, hn, heq⟩ := hbranch hn'
    obtain ⟨b, hb, js, hsorted, hjs, hlinks⟩ := h.starts i n hn hi
    refine ⟨b, heq ▸ hb, js, hsorted, fun j => ?_, hlinks⟩
    rw [hjs, hlength, hjoins]
  · obtain ⟨n, hn, heq⟩ := hbranch hn'
    exact heq ▸ h.others i n hn hi
  · exact (hidle j).mp (h.joined i j ((hjoins i j).mpr hj))

theorem joins_of_starts {i : Nat} (hstarts : children[i]?.any Visited.startsCondition = true)
    (hjoins : children[i + 1]?.any Visited.joinsCondition = true) : Joins children plans i (i + 1) where
  lt := Nat.lt_succ_self i
  starts := hstarts
  joins := hjoins
  looks := by
    obtain ⟨v, hv, hv'⟩ := (Option.any_eq_true _ _).mp hstarts
    obtain ⟨d, hd, hname⟩ := (Option.any_eq_true _ _).mp hv'
    rw [Nat.add_sub_cancel, hv, Option.any_some]
    refine Visited.looksJoinable_of_condition hd ?_
    rw [eq_of_beq hname]
    decide
  idle := fun k hk hk' => by omega
  isOpen := fun k hk hk' => by omega

theorem joins_of_joins (h : Chained children IsLink plans) (hbefore : Joins children plans i j)
    (hcloses : children[j]?.any Visited.closesCondition = false)
    (hjoins : children[j + 1]?.any Visited.joinsCondition = true) : Joins children plans i (j + 1) where
  lt := Nat.lt_succ_of_lt hbefore.lt
  starts := hbefore.starts
  joins := hjoins
  looks := by
    obtain ⟨v, hv, hv'⟩ := (Option.any_eq_true _ _).mp hbefore.joins
    obtain ⟨d, hd, -⟩ := (Option.any_eq_true _ _).mp hv'
    rw [hv, Option.any_some, Visited.closesCondition, hd, Option.any_some, beq_eq_false_iff_ne] at hcloses
    rw [Nat.add_sub_cancel, hv, Option.any_some]
    exact Visited.looksJoinable_of_condition hd hcloses
  idle := fun k hk hk' => by
    rcases Nat.lt_succ_iff_lt_or_eq.mp hk' with hlt | rfl
    · exact hbefore.idle k hk hlt
    · exact h.joined i k hbefore
  isOpen := fun k hk hk' => by
    rcases Nat.lt_succ_iff_lt_or_eq.mp hk' with hlt | rfl
    · exact hbefore.isOpen k hk hlt
    · rw [hcloses]
      exact fun hfalse => nomatch hfalse

/-- What stands right before an element that joins a condition has started it or joined it, or it takes no
part in any condition and only looks joinable. -/
theorem before_joins (h : Chained children IsLink plans) (hj : j < plans.length)
    (hjoins : Joins children plans i (j + 1)) :
    i = j ∨ Joins children plans i j ∧ children[j]?.any Visited.closesCondition = false ∨
      children[j]?.any Visited.looksJoinable = true ∧
        children[j]?.any Visited.startsCondition = false ∧ ∀ i', ¬ Joins children plans i' j := by
  rcases Nat.lt_succ_iff_lt_or_eq.mp hjoins.lt with hij | rfl
  · right
    have hidle := hjoins.idle j hij (Nat.lt_succ_self j)
    have hstarts : children[j]?.any Visited.startsCondition = false := by
      rw [Bool.eq_false_iff]
      exact fun hstarts => h.not_idle hj hstarts hidle
    by_cases hpart : ∃ i', Joins children plans i' j
    · obtain ⟨i', hi'⟩ := hpart
      have hlt := hi'.lt
      obtain rfl : i = i' := h.unique (by omega) (by omega) hjoins hi' hij (by omega)
      refine Or.inl ⟨hi', ?_⟩
      rw [Bool.eq_false_iff]
      intro hcloses
      have hlooks := hjoins.isOpen j hij (Nat.lt_succ_self j) hcloses
      rw [hi'.looks] at hlooks
      cases hlooks
    · exact Or.inr ⟨hjoins.looks, hstarts, fun i' hi' => hpart ⟨i', hi'⟩⟩
  · exact Or.inl rfl

end Chained

end

end JsxTemplate
