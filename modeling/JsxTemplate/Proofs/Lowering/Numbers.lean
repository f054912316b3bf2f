import JsxTemplate.Proofs.Lowering.Reactivity

/-!
# Numbers are taken once

The walk gives a node only a number that is new, and only an operation that makes the current node is given
the number of the node. So all numbers in the plan are different, and each operation carries the number of
its node.
-/

namespace JsxTemplate

theorem Scale.block_finish_le {W : Scale} (hW : ∀ p, W.part p = 0) (c : Context) :
    W.block c.finish.block ≤ W.context c := by
  simp only [Context.finish, Lower.weight_close, hW, Scale.context, Scale.frame]
  omega

/-- The labels of all nodes in the plan weigh no more than all numbers. -/
theorem Scale.labels_le {W : Scale} (hW : ∀ p, W.part p = 0) (o : LoweringOptions) (t : Template) :
    ((t.lower o .none).finish.block.census.map fun n => W.label n.label).sum ≤ W.unused 0 := by
  obtain ⟨once, -, hwalk⟩ := Lower.visits_lowerNode onceRule_isOpen t.depth (Context.ofTemplate o t)
  have hweight : W.context (t.lower o .none) ≤ W.context (Context.ofTemplate o t) :=
    hwalk.weight W fun p _ => hW p
  calc ((t.lower o .none).finish.block.census.map fun n => W.label n.label).sum
      ≤ W.block (t.lower o .none).finish.block := Nat.le_add_left _ _
    _ ≤ W.context (t.lower o .none) := Scale.block_finish_le hW _
    _ ≤ W.context (Context.ofTemplate o t) := hweight
    _ = W.unused 0 := W.context_ofTemplate o t

theorem fits_of_mem_census {o : LoweringOptions} {t : Template} {n : NodePlan}
    (hn : n ∈ (t.lower o .none).finish.block.census) : n.label.Fits := by
  have hlabels := Scale.labels_le (W := .flaws) (fun _ => rfl) o t
  have hle := List.single_le_sum (by simp) _ (List.mem_map_of_mem (f := fun n => n.label.flaw) hn)
  exact Label.fits_of_flaw (Nat.le_zero.mp (hle.trans hlabels))

/-- The numbers of the nodes and placeholders of all blocks are pairwise different, a variable refers
to exactly the nodes with a number, and what makes a node carries its number. -/
theorem numbers_distinct (o : LoweringOptions) (t : Template) :
    let nodes := (t.lower o .none).finish.block.census
    (nodes.flatMap fun n => n.id.toList ++ n.anchor.toList).Nodup ∧
    ∀ n ∈ nodes, n.referenced = n.id.isSome ∧
      ∀ op, n.operation = some op → ∀ i ∈ op.madeIds, n.id = some i := by
  intro nodes
  constructor
  · rw [List.nodup_iff_count]
    intro v
    have hlabels := Scale.labels_le (W := .counting v) (fun _ => rfl) o t
    rw [List.count_flatMap]
    exact hlabels.trans (by simp [Scale.counting])
  · intro n hn
    have hfits := fits_of_mem_census hn
    refine ⟨hfits.1, fun op hop i hi => hfits.2.1 i ?_⟩
    simpa [NodePlan.label, hop] using hi

end JsxTemplate
