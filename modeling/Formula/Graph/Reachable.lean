import Formula.Graph.Basic

/-!
# What a node uses

`Graph.reachable` marks the nodes that a node is made of. Operands stand before the nodes that use
them, so one pass from the node down to the first one settles every mark.
-/

namespace Formula.Graph

def mark (live : Array Bool) (n : Node Nat) : Array Bool :=
  n.children.foldl (fun live c ↦ live.setIfInBounds c true) live

/-- Marks the operands of the marked nodes below `i`, the last node first. -/
def sweep (g : Graph) : Nat → Array Bool → Array Bool
  | 0, live => live
  | i + 1, live =>
    match live.getD i false, g.nodes[i]? with
    | true, some n => sweep g i (mark live n)
    | _, _ => sweep g i live

/-- For each node up to `root`, whether `root` is made of it. -/
def reachable (g : Graph) (root : Fin g.size) : Array Bool :=
  g.sweep (root + 1) ((Array.replicate (root + 1) false).setIfInBounds root true)

def marked (g : Graph) (root : Fin g.size) : Array (Node Nat × Bool) :=
  g.nodes.zip (g.reachable root)

end Formula.Graph
