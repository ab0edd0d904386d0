import Formula.Tree

/-!
# Shared formulas

A `Graph` stores the nodes of formulas in an array. Operands are given by index and stand before the
nodes that use them, so nodes can be shared, unused ones can be present, and no formula is its own
part. `Graph.scan` computes something for every node from what it computed for the operands; it
satisfies the equation of the recursion on operands (`Graph.getElem?_scan`).
-/

namespace Formula

def Node.Below (n : Node Nat) (bound : Nat) : Prop := ∀ c ∈ n.children, c < bound

instance (n : Node Nat) (bound : Nat) : Decidable (n.Below bound) :=
  inferInstanceAs (Decidable (∀ c ∈ n.children, c < bound))

theorem Node.Below.mono {n : Node Nat} {a b : Nat} (h : n.Below a) (hab : a ≤ b) : n.Below b :=
  fun c hc ↦ Nat.lt_of_lt_of_le (h c hc) hab

theorem Node.below_const (v : Double) (b : Nat) : (Node.const v : Node Nat).Below b := by
  intro c hc
  simp [Node.children] at hc

theorem Node.below_var (v : Var) (b : Nat) : (Node.var v : Node Nat).Below b := by
  intro c hc
  simp [Node.children] at hc

theorem Node.below_bin (op : BinOp) {i j b : Nat} (hi : i < b) (hj : j < b) :
    (Node.bin op i j).Below b := by
  intro c hc
  simp only [Node.children, List.mem_cons, List.not_mem_nil, or_false] at hc
  omega

theorem Node.below_call (name : String) {i b : Nat} (hi : i < b) : (Node.call name i).Below b := by
  intro c hc
  simp only [Node.children, List.mem_cons, List.not_mem_nil, or_false] at hc
  omega

/-- Nodes in an array, operands before the nodes that use them. -/
structure Graph where
  nodes : Array (Node Nat)
  below : ∀ (i : Nat) (h : i < nodes.size), nodes[i].Below i

namespace Graph

inductive Fault where
  | childNotEarlier
  | outOfRange (size index : Nat)
deriving DecidableEq, Repr

def Fault.message : Fault → String
  | childNotEarlier => "children must precede parents"
  | outOfRange size index =>
    s!"index out of bounds: the len is {size} but the index is {index}"

def size (g : Graph) : Nat := g.nodes.size

def empty : Graph := ⟨#[], fun _ h ↦ absurd h (Nat.not_lt_zero _)⟩

/-- The graph with one more node, which gets the old size as its index. -/
def add (g : Graph) (n : Node Nat) (h : n.Below g.size) : Graph where
  nodes := g.nodes.push n
  below i hi := by
    rw [Array.getElem_push]
    split
    · next h' => exact g.below i h'
    · next h' =>
      have : i = g.nodes.size := by
        rw [Array.size_push] at hi
        omega
      exact this ▸ h

@[simp] theorem size_add (g : Graph) (n : Node Nat) (h : n.Below g.size) :
    (g.add n h).size = g.size + 1 := by
  simp [add, size]

/-- Adds a node whose operands are not known to stand earlier. -/
def push (g : Graph) (n : Node Nat) : Except Fault Graph :=
  if h : n.Below g.size then .ok (g.add n h) else .error .childNotEarlier

def node (g : Graph) (i : Fin g.size) : Node Nat :=
  have h : i.val < g.nodes.size := i.2
  g.nodes[i.val]

theorem node_below (g : Graph) (i : Fin g.size) : (g.node i).Below i := g.below i i.2

section Operands

variable {g : Graph} {i : Fin g.size} {op : BinOp} {l r arg : Nat} {name : String}

theorem lt_of_node_eq_bin (h : g.node i = .bin op l r) : l < i ∧ r < i :=
  ⟨g.node_below i l (by simp [h, Node.children]), g.node_below i r (by simp [h, Node.children])⟩

theorem lt_of_node_eq_call (h : g.node i = .call name arg) : arg < i :=
  g.node_below i arg (by simp [h, Node.children])

theorem lhs_lt_size (h : g.node i = .bin op l r) : l < g.size :=
  Nat.lt_trans (lt_of_node_eq_bin h).1 i.2

theorem rhs_lt_size (h : g.node i = .bin op l r) : r < g.size :=
  Nat.lt_trans (lt_of_node_eq_bin h).2 i.2

theorem arg_lt_size (h : g.node i = .call name arg) : arg < g.size :=
  Nat.lt_trans (lt_of_node_eq_call h) i.2

end Operands

def get (g : Graph) (i : Nat) : Except Fault (Node Nat) :=
  match g.nodes[i]? with
  | some n => .ok n
  | none => .error (.outOfRange g.size i)

def ofNodes (ns : List (Node Nat)) : Except Fault Graph := ns.foldlM push empty

/-- One result for each node, computed from the results for its operands. -/
def scan {α : Type} [Inhabited α] (g : Graph) (f : Node α → α) : Array α :=
  g.nodes.foldl (fun acc n ↦ acc.push (f (n.map fun c ↦ acc.getD c default))) #[]

theorem scan_invariant {α : Type} [Inhabited α] (g : Graph) (f : Node α → α) :
    (g.scan f).size = g.size ∧ ∀ (i : Nat) (h : i < g.nodes.size), i < g.size →
      (g.scan f)[i]? = some (f (g.nodes[i].map fun c ↦ (g.scan f).getD c default)) := by
  refine Array.foldl_induction
    (motive := fun k (acc : Array α) ↦ acc.size = k ∧ ∀ (i : Nat) (h : i < g.nodes.size), i < k →
      acc[i]? = some (f (g.nodes[i].map fun c ↦ acc.getD c default)))
    ⟨rfl, fun i h hi ↦ absurd hi (Nat.not_lt_zero i)⟩ ?_
  rintro k acc ⟨hsize, hacc⟩
  have old : ∀ (i : Nat) (h : i < g.nodes.size), i ≤ k → ∀ v : α,
      g.nodes[i].map (fun c ↦ (acc.push v).getD c default) =
        g.nodes[i].map (fun c ↦ acc.getD c default) := by
    intro i h hi v
    apply Node.map_congr
    intro c hc
    have hlt : c < acc.size := by
      have := g.below i h c hc
      omega
    simp [Array.getD_eq_getD_getElem?, Array.getElem?_push, Nat.ne_of_lt hlt]
  refine ⟨by simp [hsize], fun i h hi ↦ ?_⟩
  rw [old i h (by omega), Array.getElem?_push]
  by_cases hik : i = k
  · subst hik
    rw [if_pos hsize.symm]
    rfl
  · rw [if_neg (by omega)]
    exact hacc i h (by omega)

theorem size_scan {α : Type} [Inhabited α] (g : Graph) (f : Node α → α) :
    (g.scan f).size = g.size :=
  (g.scan_invariant f).1

theorem getElem?_scan {α : Type} [Inhabited α] (g : Graph) (f : Node α → α) (i : Nat)
    (h : i < g.nodes.size) :
    (g.scan f)[i]? = some (f (g.nodes[i].map fun c ↦ (g.scan f).getD c default)) :=
  (g.scan_invariant f).2 i h h

def unfold (g : Graph) (i : Nat) : Tree := (g.scan Tree.ofNode).getD i default

theorem unfold_eq (g : Graph) (i : Nat) (h : i < g.nodes.size) :
    g.unfold i = Tree.ofNode (g.nodes[i].map g.unfold) := by
  unfold unfold
  rw [Array.getD_eq_getD_getElem?, getElem?_scan g Tree.ofNode i h]
  rfl

theorem unfold_node (g : Graph) (i : Fin g.size) :
    g.unfold i = Tree.ofNode ((g.node i).map g.unfold) :=
  g.unfold_eq i i.2

end Graph

structure RootedGraph where
  graph : Graph
  root : Fin graph.size

namespace Graph

def rootedAt (g : Graph) (i : Nat) : Except Fault RootedGraph :=
  if h : i < g.size then .ok ⟨g, i, h⟩ else .error (.outOfRange g.size i)

end Graph

namespace Graph

/-- A graph at least as large as `g`, and a node of it. -/
abbrev Extension (g : Graph) := { r : RootedGraph // g.size ≤ r.graph.size }

namespace Extension

def ofNode {g : Graph} (h : Graph) (hgh : g.size ≤ h.size) (n : Node Nat) (hn : n.Below h.size) :
    Extension g :=
  let i := h.size
  ⟨⟨h.add n hn, i, by simp [i]⟩, by
    rw [size_add]
    omega⟩

def here (g : Graph) (i : Nat) (h : i < g.size) : Extension g := ⟨⟨g, i, h⟩, Nat.le_refl _⟩

def const (g : Graph) (v : Double) : Extension g :=
  ofNode g (Nat.le_refl _) (.const v) (Node.below_const v _)

def var (g : Graph) (v : Var) : Extension g :=
  ofNode g (Nat.le_refl _) (.var v) (Node.below_var v _)

def call {g : Graph} (name : String) : Extension g → Extension g
  | ⟨⟨h, i⟩, hgh⟩ => ofNode h hgh (.call name i) (Node.below_call name i.2)

/-- An operation on the node that is pointed at and one that is added behind it. -/
def bin {g : Graph} (op : BinOp) :
    Extension g → ((h : Graph) → g.size ≤ h.size → Extension h) → Extension g
  | ⟨⟨h, i⟩, hgh⟩, next =>
    match next h hgh with
    | ⟨⟨k, j⟩, hhk⟩ =>
      ofNode k (Nat.le_trans hgh hhk) (.bin op i j)
        (Node.below_bin op (Nat.lt_of_lt_of_le i.2 hhk) j.2)

/-- A constant times the node that is pointed at; the constant is added behind it. -/
def scale {g : Graph} (factor : Double) : Extension g → Extension g
  | ⟨⟨h, i⟩, hgh⟩ =>
    match const h factor with
    | ⟨⟨k, j⟩, hhk⟩ =>
      ofNode k (Nat.le_trans hgh hhk) (.bin .mul j i)
        (Node.below_bin .mul j.2 (Nat.lt_of_lt_of_le i.2 hhk))

end Extension

end Graph

namespace RootedGraph

def tree (r : RootedGraph) : Tree := r.graph.unfold r.root

def display (r : RootedGraph) : String := r.tree.display

end RootedGraph

end Formula
