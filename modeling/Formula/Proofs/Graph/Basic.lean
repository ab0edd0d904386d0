import Formula.Graph.Calls
import Formula.Proofs.Tree.Value

/-!
# Induction on the nodes of a graph

Operands stand before the nodes that use them, so what holds of a node when it holds of its operands
holds of every node. The two analyses of calls are the first use of it: they tell of each node what
is true of the formula at the node.
-/

namespace Formula

theorem getD_push {α : Type} (as : Array α) (a d : α) (i : Nat) :
    (as.push a).getD i d = if i = as.size then a else as.getD i d := by
  rw [Array.getD_eq_getD_getElem?, Array.getElem?_push, Array.getD_eq_getD_getElem?]
  split <;> rfl

namespace Graph

theorem node_induction {g : Graph} {motive : Fin g.size → Prop}
    (const : ∀ i v, g.node i = .const v → motive i)
    (var : ∀ i v, g.node i = .var v → motive i)
    (bin : ∀ i op (l r : Fin g.size), g.node i = .bin op l r → motive l → motive r → motive i)
    (call : ∀ i name (arg : Fin g.size), g.node i = .call name arg → motive arg → motive i)
    (i : Fin g.size) : motive i := by
  obtain ⟨k, hk⟩ := i
  induction k using Nat.strong_induction_on with
  | _ k ih =>
    cases h : g.node ⟨k, hk⟩ with
    | const v => exact const _ v h
    | var v => exact var _ v h
    | bin op l r =>
        obtain ⟨hl, hr⟩ := lt_of_node_eq_bin h
        exact bin _ op ⟨l, hl.trans hk⟩ ⟨r, hr.trans hk⟩ h (ih l hl _) (ih r hr _)
    | call name arg =>
        have harg := lt_of_node_eq_call h
        exact call _ name ⟨arg, harg.trans hk⟩ h (ih arg harg _)

theorem unfold_const {g : Graph} {i : Fin g.size} {v : Double} (h : g.node i = .const v) :
    g.unfold i = .const v := by
  rw [g.unfold_node i, h]
  rfl

theorem unfold_var {g : Graph} {i : Fin g.size} {v : Var} (h : g.node i = .var v) :
    g.unfold i = .var v := by
  rw [g.unfold_node i, h]
  rfl

theorem unfold_bin {g : Graph} {i : Fin g.size} {op : BinOp} {l r : Nat}
    (h : g.node i = .bin op l r) : g.unfold i = .bin op (g.unfold l) (g.unfold r) := by
  rw [g.unfold_node i, h]
  rfl

theorem unfold_call {g : Graph} {i : Fin g.size} {name : String} {arg : Nat}
    (h : g.node i = .call name arg) : g.unfold i = .call name (g.unfold arg) := by
  rw [g.unfold_node i, h]
  rfl

theorem getD_scan {α : Type} [Inhabited α] (g : Graph) (f : Node α → α) (i : Fin g.size) (d : α) :
    (g.scan f).getD i d = f ((g.node i).map fun c ↦ (g.scan f).getD c default) := by
  rw [Array.getD_eq_getD_getElem?, getElem?_scan g f i i.2]
  rfl

end Graph

namespace CallAnalysis

theorem hasCall_run (g : Graph) (useDepth : Bool) (i : Fin g.size) :
    (run g useDepth).hasCall i = (g.unfold i).hasCall := by
  unfold hasCall run
  induction i using Graph.node_induction with
  | const i v h =>
      simp [g.getD_scan, h, Graph.unfold_const h, Node.map, Node.holdsCall, Tree.hasCall]
  | var i v h => simp [g.getD_scan, h, Graph.unfold_var h, Node.map, Node.holdsCall, Tree.hasCall]
  | bin i op l r h ihl ihr =>
      simp only [g.getD_scan, h, Graph.unfold_bin h, Node.map, Node.holdsCall, Tree.hasCall,
        ← ihl, ← ihr]
  | call i name arg h _ =>
      simp [g.getD_scan, h, Graph.unfold_call h, Node.map, Node.holdsCall, Tree.hasCall]

end CallAnalysis

end Formula
