import Formula.FunctionTable
import Formula.Graph.Reachable
import Formula.ReadError

/-!
# Evaluating a formula

`RootedGraph.evaluate` computes the values of the nodes that the root is made of, in order. Of
several functions without an entry in the table it reports the one whose call stands first.
-/

namespace Formula

structure UnknownFunction where
  name : String
deriving DecidableEq, Repr

def UnknownFunction.message (e : UnknownFunction) : String := SymbolKind.func.undefined e.name

namespace Node

def value (t : FunctionTable) (x y : Double) : Node Double → Except UnknownFunction Double
  | const v => .ok v
  | var .x => .ok x
  | var .y => .ok y
  | bin op a b => .ok (op.apply a b)
  | call name a =>
    match t.get? name with
    | some f => .ok (f.apply a)
    | none => .error ⟨name⟩

end Node

namespace RootedGraph

/-- Adds the value of the next node; a node that is not needed counts as zero. -/
def pushValue (t : FunctionTable) (x y : Double) (values : Array Double) :
    Node Nat × Bool → Except UnknownFunction (Array Double)
  | (_, false) => .ok (values.push 0)
  | (n, true) => do
    let v ← (n.map fun c ↦ values.getD c 0).value t x y
    return values.push v

def evaluate (r : RootedGraph) (t : FunctionTable) (x y : Double) :
    Except UnknownFunction Double := do
  let values ← (r.graph.marked r.root).foldlM (pushValue t x y) #[]
  return values.getD r.root 0

end RootedGraph

end Formula
