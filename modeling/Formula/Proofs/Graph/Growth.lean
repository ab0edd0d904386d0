import Formula.Expr.Basic
import Formula.Proofs.Graph.Basic

/-!
# Graphs that grow

A node that is added changes no formula that is there already. So the nodes of an expression can be
laid out behind any graph: its root unfolds to the tree of the expression, and the graph keeps its
formulas.
-/

namespace Formula

namespace Graph

theorem node_add_of_lt (g : Graph) (n : Node Nat) (hn : n.Below g.size) {i : Nat} (h : i < g.size) :
    (g.add n hn).node ⟨i, by rw [size_add]; omega⟩ = g.node ⟨i, h⟩ := by
  simp only [node, add]
  exact Array.getElem_push_lt h

theorem node_add_self (g : Graph) (n : Node Nat) (hn : n.Below g.size) :
    (g.add n hn).node ⟨g.size, by rw [size_add]; omega⟩ = n := by
  simp [node, add, size]

theorem unfold_add_of_lt (g : Graph) (n : Node Nat) (hn : n.Below g.size) {i : Nat}
    (h : i < g.size) : (g.add n hn).unfold i = g.unfold i := by
  induction i using Nat.strong_induction_on with
  | _ i ih =>
    have hnew := (g.add n hn).unfold_node ⟨i, by rw [size_add]; omega⟩
    have hold := g.unfold_node ⟨i, h⟩
    rw [node_add_of_lt g n hn h] at hnew
    rw [hnew, hold]
    congr 1
    apply Node.map_congr
    intro c hc
    have hci : c < i := g.node_below ⟨i, h⟩ c hc
    exact ih c hci (hci.trans h)

theorem unfold_add_self (g : Graph) (n : Node Nat) (hn : n.Below g.size) :
    (g.add n hn).unfold g.size = Tree.ofNode (n.map g.unfold) := by
  have hnew := (g.add n hn).unfold_node ⟨g.size, by rw [size_add]; omega⟩
  rw [node_add_self] at hnew
  rw [hnew]
  congr 1
  apply Node.map_congr
  intro c hc
  exact unfold_add_of_lt g n hn (hn c hc)

/-- Every formula of `g` is in `h`, at the same index. -/
structure Grows (g h : Graph) : Prop where
  size_le : g.size ≤ h.size
  unfold_eq : ∀ i < g.size, h.unfold i = g.unfold i

namespace Grows

theorem refl (g : Graph) : g.Grows g := ⟨le_rfl, fun _ _ ↦ rfl⟩

theorem trans {g h k : Graph} (hgh : g.Grows h) (hhk : h.Grows k) : g.Grows k where
  size_le := hgh.size_le.trans hhk.size_le
  unfold_eq i hi := (hhk.unfold_eq i (hi.trans_le hgh.size_le)).trans (hgh.unfold_eq i hi)

theorem add (g : Graph) (n : Node Nat) (hn : n.Below g.size) : g.Grows (g.add n hn) where
  size_le := by
    rw [size_add]
    omega
  unfold_eq _ hi := unfold_add_of_lt g n hn hi

end Grows

namespace Extension

variable {g : Graph}

/-- The node that is pointed at unfolds to a tree, and the formulas of `g` are kept. -/
structure Shows (e : Extension g) (a : Tree) : Prop where
  grows : g.Grows e.1.graph
  tree : e.1.tree = a

theorem shows_ofNode {h : Graph} (hgh : g.Grows h) (n : Node Nat) (hn : n.Below h.size) :
    (ofNode h hgh.size_le n hn).Shows (Tree.ofNode (n.map h.unfold)) :=
  ⟨hgh.trans (.add h n hn), h.unfold_add_self n hn⟩

theorem shows_here (g : Graph) (i : Nat) (h : i < g.size) : (here g i h).Shows (g.unfold i) :=
  ⟨.refl g, rfl⟩

theorem shows_const (g : Graph) (v : Double) : (const g v).Shows (.const v) :=
  shows_ofNode (.refl g) (.const v) _

theorem shows_var (g : Graph) (v : Var) : (var g v).Shows (.var v) :=
  shows_ofNode (.refl g) (.var v) _

theorem Shows.call {e : Extension g} {a : Tree} (h : e.Shows a) (name : String) :
    (e.call name).Shows (.call name a) := by
  obtain ⟨⟨k, i⟩, hk⟩ := e
  have hnode := shows_ofNode h.grows (.call name i) (Node.below_call name i.2)
  rw [← h.tree]
  exact hnode

theorem Shows.bin {e : Extension g} {a b : Tree} (h : e.Shows a)
    {next : (h : Graph) → g.size ≤ h.size → Extension h}
    (hnext : (next e.1.graph e.2).Shows b) (op : BinOp) :
    (e.bin op next).Shows (.bin op a b) := by
  obtain ⟨⟨k, i⟩, hk⟩ := e
  simp only [Extension.bin] at hnext ⊢
  generalize next k hk = e' at hnext ⊢
  obtain ⟨⟨k', j⟩, hk'⟩ := e'
  have hnode := shows_ofNode (h.grows.trans hnext.grows) (.bin op i j)
    (Node.below_bin op (Nat.lt_of_lt_of_le i.2 hk') j.2)
  have hleft : k'.unfold i = a := (hnext.grows.unfold_eq i i.2).trans h.tree
  rw [← hleft, ← hnext.tree]
  exact hnode

theorem Shows.scale {e : Extension g} {a : Tree} (h : e.Shows a) (factor : Double) :
    (e.scale factor).Shows (.bin .mul (.const factor) a) := by
  obtain ⟨⟨k, i⟩, hk⟩ := e
  have hconst := shows_const k factor
  simp only [Extension.scale]
  generalize const k factor = e' at hconst ⊢
  obtain ⟨⟨k', j⟩, hk'⟩ := e'
  have hnode := shows_ofNode (h.grows.trans hconst.grows) (.bin .mul j i)
    (Node.below_bin .mul j.2 (Nat.lt_of_lt_of_le i.2 hk'))
  have hright : k'.unfold i = a := (hconst.grows.unfold_eq i i.2).trans h.tree
  rw [← hright, ← hconst.tree]
  exact hnode

end Extension

end Graph

namespace Expr

theorem shows_addTo (e : Expr) (g : Graph) : (e.addTo g).Shows e.tree := by
  induction e generalizing g with
  | number v => exact Graph.Extension.shows_const g v
  | var v => exact Graph.Extension.shows_var g v
  | neg e ih => exact (ih g).scale (-1)
  | bin op l r ihl ihr => exact (ihl g).bin (ihr _) op
  | call name a ih => exact (ih g).call name

theorem tree_toGraph (e : Expr) : e.toGraph.tree = e.tree := (e.shows_addTo .empty).tree

end Expr

end Formula
