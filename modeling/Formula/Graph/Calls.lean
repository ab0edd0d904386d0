import Formula.Graph.Basic

/-!
# Where calls are

For each node of a graph: whether there is a call in it, and how deeply calls nest in it. The
results only decide the order of evaluation.
-/

namespace Formula

namespace Node

def holdsCall : Node Bool → Bool
  | const _ | var _ => false
  | bin _ a b => a || b
  | call _ _ => true

def nestedCalls : Node Nat → Nat
  | const _ | var _ => 0
  | bin _ a b => max a b
  | call _ a => a + 1

end Node

structure CallAnalysis where
  containsCall : Array Bool
  callDepth : Array Nat

namespace CallAnalysis

/-- The analysis of a graph. Without depths, every depth is zero. -/
def run (g : Graph) (useDepth : Bool) : CallAnalysis where
  containsCall := g.scan Node.holdsCall
  callDepth := if useDepth then g.scan Node.nestedCalls else Array.replicate g.size 0

def hasCall (a : CallAnalysis) (i : Nat) : Bool := a.containsCall.getD i false

def depth (a : CallAnalysis) (i : Nat) : Nat := a.callDepth.getD i 0

end CallAnalysis

end Formula
