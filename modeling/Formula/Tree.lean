import Formula.Basic
import Formula.Decimal.Layout

/-!
# Formulas as trees

`Node α` is one layer of a formula whose operands are of type `α`. A `Tree` is a formula in full.
`Tree.display` writes it with every operation in parentheses.
-/

namespace Formula

/-- One layer of a formula, with operands of type `α`. -/
inductive Node (α : Type) where
  | const (value : Double)
  | var (v : Var)
  | bin (op : BinOp) (lhs rhs : α)
  | call (name : String) (arg : α)
deriving DecidableEq

namespace Node

variable {α β : Type}

def map (f : α → β) : Node α → Node β
  | const v => const v
  | var v => var v
  | bin op l r => bin op (f l) (f r)
  | call name a => call name (f a)

def children : Node α → List α
  | const _ | var _ => []
  | bin _ l r => [l, r]
  | call _ a => [a]

theorem map_congr {f g : α → β} {n : Node α} (h : ∀ c ∈ n.children, f c = g c) :
    n.map f = n.map g := by
  cases n <;> simp_all [map, children]

end Node

inductive Tree where
  | const (value : Double)
  | var (v : Var)
  | bin (op : BinOp) (lhs rhs : Tree)
  | call (name : String) (arg : Tree)
deriving DecidableEq

namespace Tree

instance : Inhabited Tree := ⟨const 0⟩

def ofNode : Node Tree → Tree
  | .const v => const v
  | .var v => var v
  | .bin op l r => bin op l r
  | .call name a => call name a

def size : Tree → Nat
  | const _ | var _ => 1
  | bin _ l r => l.size + r.size + 1
  | call _ a => a.size + 1

theorem size_pos (t : Tree) : 0 < t.size := by
  cases t <;> simp [size]

inductive Piece where
  | tree (t : Tree)
  | text (s : String)

def Piece.weight : Piece → Nat
  | tree t => 5 * t.size
  | text _ => 1

def weights (ps : List Piece) : Nat := ps.foldr (fun p n ↦ p.weight + n) 0

@[simp] theorem weights_nil : weights [] = 0 := rfl

@[simp] theorem weights_cons (p : Piece) (ps : List Piece) :
    weights (p :: ps) = p.weight + weights ps := rfl

/-- Writes the pieces in order behind what is written already. The pieces wait in a list, so a long
chain of operations takes no deeper recursion than a short one. -/
def write (out : String) : List Piece → String
  | [] => out
  | .text s :: rest => write (out ++ s) rest
  | .tree (const v) :: rest => write (out ++ Decimal.plain.write v) rest
  | .tree (var v) :: rest => write (out ++ v.name) rest
  | .tree (bin op l r) :: rest =>
    write (out ++ "(")
      (.tree l :: .text (String.ofList [' ', op.symbol, ' ']) :: .tree r :: .text ")" :: rest)
  | .tree (call name a) :: rest => write (out ++ name ++ "(") (.tree a :: .text ")" :: rest)
termination_by ps => weights ps
decreasing_by
  all_goals simp only [weights_cons, Piece.weight, size]
  all_goals omega

/-- A tree with every operation in parentheses. -/
def display (t : Tree) : String := write "" [.tree t]

end Tree

end Formula
