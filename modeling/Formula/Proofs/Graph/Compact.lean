import Formula.Proofs.Expr.Layout
import Formula.Proofs.Graph.FoldShape

/-!
# A folded graph is compact

Folding goes as far as it can: what is left has inputs or calls without an entry in it, and the root
becomes a constant exactly if there are none (`Tree.exists_fold_eq_const_iff`). Each node of the new
graph goes back to one that the root was made of. Where no node has two users, no two of them go
back to the same node, so the graph does not become larger (`RootedGraph.size_fold_le`).
-/

namespace Formula

namespace Tree

variable {t : FunctionTable}

/-- The formula depends on an input. -/
def hasVar : Tree → Bool
  | const _ => false
  | var _ => true
  | bin _ l r => l.hasVar || r.hasVar
  | call _ a => a.hasVar

theorem exists_fold_eq_const_iff {e : Tree} :
    (∃ v, e.fold t = .const v) ↔ e.hasVar = false ∧ e.Known t := by
  induction e with
  | const v => simp [fold, hasVar, Known]
  | var v => simp [fold, hasVar]
  | bin op l r ihl ihr =>
      have hparts : (∃ v, (bin op l r).fold t = .const v) ↔
          (∃ v, l.fold t = .const v) ∧ ∃ v, r.fold t = .const v := by
        rw [fold]
        rcases foldBin_cases op (l.fold t) (r.fold t) with ⟨a, b, ha, hb, hfold⟩ | ⟨hkeep, hfold⟩
        · exact iff_of_true ⟨_, hfold⟩ ⟨⟨a, ha⟩, b, hb⟩
        · rw [hfold]
          apply iff_of_false (by simp)
          rintro ⟨⟨a, ha⟩, b, hb⟩
          exact hkeep a b ⟨ha, hb⟩
      rw [hparts, ihl, ihr, hasVar, Bool.or_eq_false_iff, Known]
      tauto
  | call name a ih =>
      have hparts : (∃ v, (call name a).fold t = .const v) ↔
          t.contains name = true ∧ ∃ v, a.fold t = .const v := by
        rw [fold, FunctionTable.contains_eq_true_iff]
        rcases foldCall_cases t name (a.fold t) with ⟨v, f, hv, hf, hfold⟩ | ⟨hkeep, hfold⟩
        · exact iff_of_true ⟨_, hfold⟩ ⟨⟨f, hf⟩, v, hv⟩
        · rw [hfold]
          apply iff_of_false (by simp)
          rintro ⟨⟨f, hf⟩, v, hv⟩
          exact hkeep v f ⟨hv, hf⟩
      rw [hparts, ih, hasVar, Known]
      tauto

end Tree

theorem Graph.isConst_iff {g : Graph} (i : Fin g.size) :
    g.IsConst i ↔ ∃ v, g.unfold i = .const v := by
  have hget : g.nodes[i.val]? = some (g.node i) := Array.getElem?_eq_getElem _
  rw [IsConst, hget, g.unfold_node i]
  cases g.node i <;> simp [Node.map, Tree.ofNode]

namespace RootedGraph

variable {r : RootedGraph} {t : FunctionTable}

theorem isConst_fold_iff :
    (r.fold t).graph.IsConst (r.fold t).root ↔ r.tree.hasVar = false ∧ r.tree.Known t := by
  rw [Graph.isConst_iff, ← Tree.exists_fold_eq_const_iff, ← r.tree_fold t]
  rfl

theorem exists_fold_eq_constant (h : (r.fold t).graph.IsConst (r.fold t).root) :
    ∃ v, r.fold t = .constant v := by
  cases hroot : Folding.lookup (r.folding t).known r.root with
  | const v => exact ⟨v, fold_eq_constant hroot⟩
  | node j =>
      obtain ⟨hgraph, hindex⟩ := fold_of_lookup hroot
      rw [hindex, hgraph] at h
      exact absurd h ((r.tidy_folding t).stays _ _ hroot)

/-- The nodes that the root is made of. -/
def used (r : RootedGraph) : Finset Nat :=
  {i ∈ Finset.range (r.root + 1) | (r.graph.reachable r.root).getD i false = true}

theorem mem_used_iff {i : Nat} : i ∈ r.used ↔ r.graph.Uses r.root i := by
  rw [used, Finset.mem_filter, Finset.mem_range, ← Graph.live_reachable_iff]
  constructor
  · exact And.right
  · intro hlive
    exact ⟨r.graph.size_reachable r.root ▸ hlive.lt_size, hlive⟩

/-- Where nothing is shared, two nodes of the new graph do not come from the same old node. -/
theorem Unshared.origin_unique (h : r.Unshared) {s : Folding} {i j j' : Nat}
    (hj : s.Origin r i j) (hj' : s.Origin r i j') : j = j' := by
  cases hj with
  | node hi =>
      cases hj' with
      | node hi' => exact Folded.node.inj (hi.symm.trans hi')
      | const _ _ _ hi' _ => cases hi.symm.trans hi'
  | const huses hchild hp hi _ =>
      cases hj' with
      | node hi' => cases hi.symm.trans hi'
      | const huses' hchild' hp' _ _ =>
          have hsame := h _ _ i huses huses' hchild hchild'
          rw [hsame, hp'] at hp
          exact (Nat.succ.inj (Folded.node.inj hp)).symm

theorem size_fold_le (h : r.Unshared) : (r.fold t).graph.size ≤ r.used.card := by
  cases hroot : Folding.lookup (r.folding t).known r.root with
  | const v =>
      rw [fold_eq_constant hroot]
      exact Finset.card_pos.2 ⟨r.root, mem_used_iff.2 .refl⟩
  | node j₀ =>
      obtain ⟨hgraph, -⟩ := fold_of_lookup hroot
      rw [hgraph, ← Finset.card_range (r.folding t).out.size]
      apply Finset.card_le_card_of_forall_subsingleton fun j i ↦ (r.folding t).Origin r i j
      · intro j hj
        obtain ⟨i, huses, horigin⟩ := (r.tidy_folding t).origin j (Finset.mem_range.1 hj)
        exact ⟨i, mem_used_iff.2 huses, horigin⟩
      · rintro i - j ⟨-, hj⟩ j' ⟨-, hj'⟩
        exact h.origin_unique hj hj'

/-- There is nothing left to fold and nothing in the graph that the root is not made of; the root
comes last, and no two nodes have a constant in common. -/
structure Compact (r : RootedGraph) (t : FunctionTable) : Prop extends r.Whole where
  bin : ∀ (i : Nat) op a b, r.graph.nodes[i]? = some (.bin op a b) →
    ¬ (r.graph.IsConst a ∧ r.graph.IsConst b)
  call : ∀ (i : Nat) name a, r.graph.nodes[i]? = some (.call name a) → t.contains name = true →
    ¬ r.graph.IsConst a
  earlier : ∀ i c, r.graph.Child i c → c < i
  single : ∀ i j c, r.graph.IsConst c → r.graph.Child i c → r.graph.Child j c → i = j

theorem compact_fold (r : RootedGraph) (t : FunctionTable) : (r.fold t).Compact t where
  toWhole := r.whole_fold t
  bin i op a b hn := (settled_fold hn).bin op a b rfl
  call i name a hn := (settled_fold hn).call name a rfl
  earlier _ _ hchild := hchild.lt
  single i j c hconst := by
    -- The user of a constant is the node right behind it.
    rintro ⟨n, hn, hc⟩ ⟨n', hn', hc'⟩
    exact ((settled_fold hn).near c hc hconst).symm.trans ((settled_fold hn').near c hc' hconst)

/-- Folding adds no node before its operands and leaves a compact graph. The root becomes a constant
exactly if the formula has neither inputs nor calls without an entry, and then it is the only node.
If no node that the root is made of is an operand of two of them, which is so for every formula that
is read, then there are at most as many nodes as the root was made of. -/
theorem folded_graph_is_compact (r : RootedGraph) (t : FunctionTable) :
    r.foldChecked t = some (r.fold t) ∧ (r.fold t).Compact t ∧
      ((r.fold t).graph.IsConst (r.fold t).root ↔ r.tree.hasVar = false ∧ r.tree.Known t) ∧
      ((r.fold t).graph.IsConst (r.fold t).root → (r.fold t).graph.size = 1) ∧
      (r.Unshared → (r.fold t).graph.size ≤ r.used.card) ∧ ∀ e : Expr, e.toGraph.Unshared := by
  refine ⟨r.foldChecked_eq t, r.compact_fold t, isConst_fold_iff, fun hconst ↦ ?_, size_fold_le,
    Expr.unshared_toGraph⟩
  obtain ⟨v, hv⟩ := exists_fold_eq_constant hconst
  rw [hv]
  rfl

theorem folded_graph_is_compact_of_product :
    let product : Expr := .bin .mul (.number 2) (.neg (.number 3))
    let sum : Expr := .bin .add (.call "abs" (.var .x)) product
    product.toGraph.used.card = 5 ∧ (product.toGraph.fold ⟨[]⟩).graph.size = 1 ∧
      sum.toGraph.used.card = 8 ∧ sum.toGraph.Unshared ∧ (sum.toGraph.fold ⟨[]⟩).Compact ⟨[]⟩ ∧
      (sum.toGraph.fold ⟨[]⟩).graph.size ≤ 8 := by
  intro product sum
  obtain ⟨-, -, hconst, hone, -, -⟩ := folded_graph_is_compact product.toGraph ⟨[]⟩
  obtain ⟨-, hcompact, -, -, hsize, hread⟩ := folded_graph_is_compact sum.toGraph ⟨[]⟩
  have hroot := hconst.2 ⟨by decide, by simp [product, Expr.tree_toGraph, Expr.tree, Tree.Known]⟩
  have hcard : sum.toGraph.used.card = 8 := by decide
  exact ⟨by decide, hone hroot, hcard, hread sum, hcompact, hcard ▸ hsize (hread sum)⟩

-- Two users of one constant get a constant each, so a graph with shared nodes can become larger.
example :
    let shared : Except Graph.Fault RootedGraph := do
      let g ← Graph.ofNodes [.const 2, .var .x, .bin .add 1 0, .bin .mul 2 0]
      g.rootedAt 3
    (shared.map fun r ↦ (r.used.card, (r.fold ⟨[]⟩).graph.size)) = .ok (4, 5) := by
  decide +kernel

end RootedGraph

end Formula
