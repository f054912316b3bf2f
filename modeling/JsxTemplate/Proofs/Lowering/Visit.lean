import JsxTemplate.Lowering
import Mathlib.Data.List.Basic

/-!
# The nodes that the walk sees

The walk over a template goes along paths. A visited node is valid (`Visited.Valid`) if it is what the
template has at its path; children of valid nodes are valid. The texts and expressions that belong to
the group of another one are marked by their paths (`SeenText`), so an element is never taken for one of
them.
-/

namespace JsxTemplate

/-- What stands below a node at an index: a child, or the fragment around an element inside an
expression. -/
def Node.below? : Node → Nat → Option Node
  | .expression _ roots _, i => roots[i]?.map Node.asFragment
  | n, i => n.children[i]?

/-- The node of a template at a path. -/
def Template.nodeAt? (t : Template) : Path → Option Node
  | [] => none
  | [i] => t.children[i]?
  | i :: j :: path => (t.nodeAt? (j :: path)).bind (·.below? i)

theorem Template.nodeAt?_cons {t : Template} {path : Path} {n : Node} (h : t.nodeAt? path = some n)
    (i : Nat) : t.nodeAt? (i :: path) = n.below? i := by
  cases path with
  | nil => simp [nodeAt?] at h
  | cons j path => rw [nodeAt?, h, Option.bind_some]

namespace Visited

/-- Whether a visited node is what the template has at its path. -/
def Valid (t : Template) : Visited → Prop
  | .root t' => t' = t
  | .node path n => t.nodeAt? path = some n
  | .wrapped path tag children => t.nodeAt? path = some (.element tag children)

variable {t : Template} {v c : Visited}

theorem Valid.child (h : v.Valid t) (hc : c ∈ v.children) : c.Valid t := by
  cases v with
  | root t' =>
    obtain rfl : t' = t := h
    simp only [children, List.mem_map] at hc
    obtain ⟨⟨n, i⟩, hn, rfl⟩ := hc
    simpa [Valid, Template.nodeAt?] using List.mem_zipIdx_iff_getElem?.mp hn
  | node path n =>
    simp only [children, List.mem_map] at hc
    obtain ⟨⟨m, i⟩, hm, rfl⟩ := hc
    have hm : n.children[i]? = some m := List.mem_zipIdx_iff_getElem?.mp hm
    rw [Valid, Template.nodeAt?_cons h]
    cases n with
    | expression e roots loc => simp [Node.children] at hm
    | _ => exact hm
  | wrapped path tag children =>
    simp only [Visited.children, List.mem_singleton] at hc
    subst hc
    exact h

end Visited

theorem Lower.mem_nestedRoots {vs : List Visited} {r : Visited} (hr : r ∈ nestedRoots vs) :
    ∃ path e roots loc n i, .node path (.expression e roots loc) ∈ vs ∧ roots[i]? = some n ∧
      r = .node (i :: path) n.asFragment := by
  simp only [nestedRoots, List.mem_flatMap] at hr
  obtain ⟨v, hv, hr⟩ := hr
  rcases v with _ | ⟨path, n⟩ | _
  · simp at hr
  · cases n with
    | expression e roots loc =>
      simp only [List.mem_map] at hr
      obtain ⟨⟨n, i⟩, hn, rfl⟩ := hr
      exact ⟨path, e, roots, loc, n, i, hv, List.mem_zipIdx_iff_getElem?.mp hn, rfl⟩
    | _ => simp at hr
  · simp at hr

theorem Lower.valid_of_mem_nestedRoots {t : Template} {vs : List Visited} (h : ∀ v ∈ vs, v.Valid t)
    {r : Visited} (hr : r ∈ nestedRoots vs) : r.Valid t := by
  obtain ⟨path, e, roots, loc, n, i, hv, hn, rfl⟩ := mem_nestedRoots hr
  rw [Visited.Valid, Template.nodeAt?_cons (h _ hv), Node.below?, hn, Option.map_some]

namespace SeenText

variable {t : Template} {seen : List (Path × String)}

end SeenText

end JsxTemplate
