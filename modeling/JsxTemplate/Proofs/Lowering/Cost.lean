import JsxTemplate.Lowering
import Mathlib.Data.List.Basic

/-!
# The cost of a node

How deep the walk may still go is compared with a cost of the node (`Visited.cost`), which grows smaller
from a node to its children, and by each mark that a condition or a loop leaves.
-/

namespace JsxTemplate

/-- The depth that the walk saves at a node that is marked for a purpose. -/
def markOf (seen : List (Path × String)) (path : Path) (purpose : String) : Nat :=
  if (path, purpose) ∈ seen then 1 else 0

theorem markOf_le (seen : List (Path × String)) (path : Path) (purpose : String) :
    markOf seen path purpose ≤ 1 := by
  unfold markOf
  split <;> omega

theorem markOf_mono {seen seen' : List (Path × String)} (h : ∀ m ∈ seen, m ∈ seen') (path : Path)
    (purpose : String) : markOf seen path purpose ≤ markOf seen' path purpose := by
  unfold markOf
  split
  · next hm => simp [h _ hm]
  · omega

theorem Node.height_le_heightAll {n : Node} {ns : List Node} (hn : n ∈ ns) :
    n.height ≤ heightAll ns := by
  induction ns with
  | nil => simp at hn
  | cons m ns ih =>
    rw [heightAll]
    rcases List.mem_cons.mp hn with rfl | hn
    · omega
    · have := ih hn
      omega

namespace Visited

/-- How deep the walk goes at most from a node on. An element is met up to three times: as it is, and
inside the wrappers of its condition and of its loop. -/
def cost (seen : List (Path × String)) : Visited → Nat
  | .root t => 3 * Node.heightAll t.children + 3
  | .node path (.element _ children) =>
    3 * (Node.heightAll children + 1) - markOf seen path "if" - markOf seen path "for"
  | .node _ n => 3 * n.height
  | .wrapped path _ children =>
    3 * (Node.heightAll children + 1) - markOf seen path "if" - markOf seen path "for" + 1

variable {seen seen' : List (Path × String)}

theorem cost_pos (v : Visited) : 0 < v.cost seen := by
  have hif := fun path => markOf_le seen path "if"
  have hfor := fun path => markOf_le seen path "for"
  match v with
  | .root t => simp [cost]
  | .node path (.element tag children) =>
    have := hif path
    have := hfor path
    simp only [cost]
    omega
  | .node path (.fragment children loc)
  | .node path (.text content loc) | .node path (.expression e roots loc) => simp [cost, Node.height]
  | .wrapped path tag children => simp [cost]

theorem cost_mono (h : ∀ m ∈ seen, m ∈ seen') (v : Visited) : v.cost seen' ≤ v.cost seen := by
  have hif := fun path => markOf_mono h path "if"
  have hfor := fun path => markOf_mono h path "for"
  match v with
  | .root t => exact Nat.le_refl _
  | .node path (.element tag children) =>
    have := hif path
    have := hfor path
    simp only [cost]
    omega
  | .node path (.fragment children loc)
  | .node path (.text content loc) | .node path (.expression e roots loc) => exact Nat.le_refl _
  | .wrapped path tag children =>
    have := hif path
    have := hfor path
    simp only [cost]
    omega

theorem cost_node_le (path : Path) (n : Node) : (Visited.node path n).cost seen ≤ 3 * n.height := by
  cases n with
  | element tag children =>
    simp only [cost, Node.height]
    omega
  | _ => exact Nat.le_refl _

theorem cost_child {v c : Visited} (hc : c ∈ v.children) : c.cost seen + 1 ≤ v.cost seen := by
  match v with
  | .root t =>
    simp only [children, List.mem_map] at hc
    obtain ⟨⟨n, i⟩, hn, rfl⟩ := hc
    have hle : n.height ≤ _ := Node.height_le_heightAll (List.fst_mem_of_mem_zipIdx hn)
    refine Nat.le_trans (Nat.succ_le_succ (cost_node_le [i] n)) ?_
    simp only [cost]
    omega
  | .node path n =>
    simp only [children, List.mem_map] at hc
    obtain ⟨⟨m, i⟩, hm, rfl⟩ := hc
    have hle : m.height ≤ _ := Node.height_le_heightAll (List.fst_mem_of_mem_zipIdx hm)
    refine Nat.le_trans (Nat.succ_le_succ (cost_node_le (i :: path) m)) ?_
    cases n with
    | element tag children =>
      have := markOf_le seen path "if"
      have := markOf_le seen path "for"
      simp only [Node.children] at hle
      simp only [cost]
      omega
    | fragment children loc =>
      simp only [Node.children] at hle
      simp only [cost, Node.height]
      omega
    | _ => simp [Node.children] at hm
  | .wrapped path tag children =>
    simp only [Visited.children, List.mem_singleton] at hc
    subst hc
    simp [cost]

end Visited

end JsxTemplate
