import Formula.Graph.Basic

/-!
# Formulas as they are read

An `Expr` keeps the sign in front of an operand apart from a product. `Expr.tree` gives its meaning
as a tree, where such a sign is a product with minus one, which unlike a difference from zero keeps
the sign of a zero. `Expr.toGraph` lays the nodes out in the order in which their last part is read.
-/

namespace Formula

inductive Expr where
  | number (value : Double)
  | var (v : Var)
  | neg (operand : Expr)
  | bin (op : BinOp) (lhs rhs : Expr)
  | call (name : String) (arg : Expr)
deriving DecidableEq

namespace Expr

def tree : Expr → Tree
  | number v => .const v
  | var v => .var v
  | neg e => .bin .mul (.const (-1)) e.tree
  | bin op l r => .bin op l.tree r.tree
  | call name a => .call name a.tree

/-- Adds the nodes of a formula, operands first, and its own node last. -/
def addTo (g : Graph) : Expr → Graph.Extension g
  | number v => .const g v
  | var v => .var g v
  | neg e => (e.addTo g).scale (-1)
  | bin op l r => (l.addTo g).bin op fun h _ ↦ r.addTo h
  | call name a => (a.addTo g).call name

def toGraph (e : Expr) : RootedGraph := (e.addTo .empty).1

end Expr

end Formula
