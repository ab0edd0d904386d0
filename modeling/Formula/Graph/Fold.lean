import Formula.FunctionTable
import Formula.Graph.Reachable

/-!
# Folding constants

`RootedGraph.fold` builds a new graph in which every part that does not depend on the inputs is one
constant. A call is folded by calling its function; a call of a function without an entry stays. A
constant gets a node only when a node that stays uses it, and nodes that the root is not made of are
dropped.
-/

namespace Formula

/-- What a node becomes: a constant that has no node yet, or a node of the new graph. -/
inductive Folded where
  | const (value : Double)
  | node (i : Nat)

namespace Folded

def Below (bound : Nat) : Folded → Prop
  | const _ => True
  | node i => i < bound

theorem Below.mono {k : Folded} {a b : Nat} (h : k.Below a) (hab : a ≤ b) : k.Below b := by
  cases k with
  | const v => trivial
  | node i => exact Nat.lt_of_lt_of_le h hab

/-- The node for it, which a constant gets only now. -/
def place (g : Graph) : (k : Folded) → k.Below g.size → Graph.Extension g
  | const v, _ => .const g v
  | node i, h => .here g i h

end Folded

structure Folding where
  out : Graph
  known : Array Folded
  below : ∀ k ∈ known, k.Below out.size

namespace Folding

def start : Folding := ⟨.empty, #[], by simp⟩

def lookup (known : Array Folded) (i : Nat) : Folded := known.getD i (.const 0)

theorem lookup_below {known : Array Folded} {bound : Nat} (h : ∀ k ∈ known, k.Below bound)
    (i : Nat) : (lookup known i).Below bound := by
  unfold lookup
  rw [Array.getD_eq_getD_getElem?]
  cases hi : known[i]? with
  | none => trivial
  | some k => exact h k (Array.mem_of_getElem? hi)

def constant (s : Folding) (v : Double) : Folding where
  out := s.out
  known := s.known.push (.const v)
  below := by
    intro k hk
    rcases Array.mem_push.1 hk with hk | rfl
    · exact s.below k hk
    · trivial

variable {out : Graph}

def grow (known : Array Folded) (below : ∀ k ∈ known, k.Below out.size)
    (e : Graph.Extension out) : Folding where
  out := e.1.graph
  known := known.push (.node e.1.root)
  below := by
    intro k hk
    rcases Array.mem_push.1 hk with hk | rfl
    · exact (below k hk).mono e.2
    · exact e.1.root.2

def keepCall (name : String) (k : Folded) (hk : k.Below out.size) : Graph.Extension out :=
  (k.place out hk).call name

/-- An operation on what the operands have become, the left one placed first. -/
def keepBin (op : BinOp) (k l : Folded) (hk : k.Below out.size) (hl : l.Below out.size) :
    Graph.Extension out :=
  (k.place out hk).bin op fun g hg ↦ l.place g (hl.mono hg)

def step (t : FunctionTable) : Folding → Node Nat → Folding
  | s, .const v => s.constant v
  | ⟨out, known, below⟩, .var v => grow known below (.var out v)
  | ⟨out, known, below⟩, .bin op l r =>
    match lookup known l, lookup known r, lookup_below below l, lookup_below below r with
    | .const a, .const b, _, _ => constant ⟨out, known, below⟩ (op.apply a b)
    | k, k', hk, hk' => grow known below (keepBin op k k' hk hk')
  | ⟨out, known, below⟩, .call name a =>
    match lookup known a, t.get? name, lookup_below below a with
    | .const v, some f, _ => constant ⟨out, known, below⟩ (f.apply v)
    | k, _, hk => grow known below (keepCall name k hk)

/-- Folds the next node if the root is made of it. -/
def stepMarked (t : FunctionTable) (s : Folding) : Node Nat × Bool → Folding
  | (n, true) => s.step t n
  | (_, false) => s.constant 0

end Folding

namespace RootedGraph

def fold (r : RootedGraph) (t : FunctionTable) : RootedGraph :=
  let s := (r.graph.marked r.root).foldl (Folding.stepMarked t) .start
  ((Folding.lookup s.known r.root).place s.out (Folding.lookup_below s.below r.root)).1

end RootedGraph

end Formula
