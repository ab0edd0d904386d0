import Formula.Proofs.Expr.Building
import Formula.Proofs.Expr.Layout
import Formula.Proofs.Graph.Growth

/-!
# Formulas in postorder

A graph is tiled if the operands of each node come right before it, block by block: the last operand
block ends where the node begins, the one before it ends where that block begins. Then the nodes
that a node is made of are a range that ends with the node (`Graph.Tiled.exists_block`). Laying out
an expression keeps a graph tiled, with the blocks of a sign the other way round than those of an
operation. So the nodes of a formula that is read are in postorder, and the last one is the root.
-/

namespace Formula

/-- The blocks of the operands, of the given sizes, come right before the node at `i`. -/
def Node.Tiles (size : Nat → Nat) (i : Nat) : Node Nat → Prop
  | const _ | var _ => True
  | bin _ l r => (r + 1 = i ∧ l + size r = r) ∨ (l + 1 = i ∧ r + size l = l)
  | call _ a => a + 1 = i

theorem Node.Tiles.congr {size size' : Nat → Nat} {i : Nat} {n : Node Nat}
    (h : n.Tiles size i) (hsize : ∀ c ∈ n.children, size' c = size c) : n.Tiles size' i := by
  cases n with
  | const v => trivial
  | var v => trivial
  | bin op l r =>
      rw [Tiles, hsize l (by simp [children]), hsize r (by simp [children])]
      exact h
  | call name a => exact h

namespace Graph

variable {g : Graph}

def blockSize (g : Graph) (i : Nat) : Nat := (g.unfold i).size

def Tiled (g : Graph) : Prop := ∀ i : Fin g.size, (g.node i).Tiles g.blockSize i

theorem Tiled.add (h : g.Tiled) {n : Node Nat} (hn : n.Below g.size)
    (htiles : n.Tiles g.blockSize g.size) : (g.add n hn).Tiled := by
  have hblock : ∀ c < g.size, (g.add n hn).blockSize c = g.blockSize c := fun c hc ↦
    congrArg Tree.size (unfold_add_of_lt g n hn hc)
  rintro ⟨i, hi⟩
  rw [size_add] at hi
  rcases (Nat.lt_succ_iff.1 hi).lt_or_eq with hlt | rfl
  · rw [node_add_of_lt g n hn hlt]
    refine (h ⟨i, hlt⟩).congr fun c hc ↦ hblock c ?_
    exact (g.node_below ⟨i, hlt⟩ c hc).trans hlt
  · rw [node_add_self]
    exact htiles.congr fun c hc ↦ hblock c (hn c hc)

/-- A node is made of itself and of what its operands are made of. -/
theorem uses_iff_of_children {i j : Nat} {n : Node Nat} (hn : g.nodes[i]? = some n) :
    g.Uses i j ↔ j = i ∨ ∃ c ∈ n.children, g.Uses c j := by
  rw [Uses, Relation.ReflTransGen.cases_head_iff]
  simp only [Child, hn, Option.some.injEq, exists_eq_left']
  exact or_congr eq_comm Iff.rfl

/-- The nodes from `first` to `i` are the block of the node at `i`. -/
def Block (g : Graph) (first i : Nat) : Prop :=
  first + g.blockSize i = i + 1 ∧ ∀ j, g.Uses i j ↔ first ≤ j ∧ j ≤ i

theorem block_of_leaf {i : Fin g.size} {n : Node Nat} (hi : g.node i = n) (hleaf : n.children = [])
    (hsize : g.blockSize i = 1) : g.Block i i := by
  refine ⟨by omega, fun j ↦ ?_⟩
  rw [uses_iff_of_children (Array.getElem?_eq_some_iff.2 ⟨_, hi⟩), hleaf]
  simp only [List.not_mem_nil, false_and, exists_false, or_false]
  omega

/-- In a tiled graph the nodes that a node is made of are a block that ends with it. -/
theorem Tiled.exists_block (h : g.Tiled) (i : Fin g.size) : ∃ first, g.Block first i := by
  have htiles := h i
  induction i using node_induction with
  | const i v hi =>
      exact ⟨i, block_of_leaf hi rfl (by rw [blockSize, unfold_const hi, Tree.size])⟩
  | var i v hi =>
      exact ⟨i, block_of_leaf hi rfl (by rw [blockSize, unfold_var hi, Tree.size])⟩
  | bin i op l r hi ihl ihr =>
      obtain ⟨firstl, hl, husesl⟩ := ihl (h l)
      obtain ⟨firstr, hr, husesr⟩ := ihr (h r)
      have hsize : g.blockSize i = g.blockSize l + g.blockSize r + 1 := by
        rw [blockSize, unfold_bin hi]
        rfl
      rw [hi, Node.Tiles] at htiles
      refine ⟨min firstl firstr, by omega, fun j ↦ ?_⟩
      rw [uses_iff_of_children (Array.getElem?_eq_some_iff.2 ⟨_, hi⟩)]
      simp only [Node.children, List.mem_cons, List.not_mem_nil, or_false, exists_eq_or_imp,
        exists_eq_left, husesl, husesr]
      omega
  | call i name a hi ih =>
      obtain ⟨first, ha, huses⟩ := ih (h a)
      have hsize : g.blockSize i = g.blockSize a + 1 := by
        rw [blockSize, unfold_call hi]
        rfl
      rw [hi, Node.Tiles] at htiles
      refine ⟨first, by omega, fun j ↦ ?_⟩
      rw [uses_iff_of_children (Array.getElem?_eq_some_iff.2 ⟨_, hi⟩)]
      simp only [Node.children, List.mem_singleton, exists_eq_left, huses]
      omega

/-- No operand of a node is written twice. -/
theorem Tiled.nodup_children (h : g.Tiled) (i : Fin g.size) : (g.node i).children.Nodup := by
  have htiles := h i
  generalize g.node i = n at htiles
  cases n with
  | const v => simp [Node.children]
  | var v => simp [Node.children]
  | call name a => simp [Node.children]
  | bin op l r =>
      have hl : 0 < g.blockSize l := (g.unfold l).size_pos
      have hr : 0 < g.blockSize r := (g.unfold r).size_pos
      have hne : l ≠ r := by
        rw [Node.Tiles] at htiles
        omega
      simp [Node.children, hne]

/-- The node at `c` is the operand at place `k` of the node at `i`. -/
def Operand (g : Graph) (i k c : Nat) : Prop :=
  ∃ n, g.nodes[i]? = some n ∧ n.children[k]? = some c

theorem child_iff_exists_operand {i c : Nat} : g.Child i c ↔ ∃ k, g.Operand i k c := by
  simp only [Child, Operand, List.mem_iff_getElem?]
  exact ⟨fun ⟨n, hn, k, hk⟩ ↦ ⟨k, n, hn, hk⟩, fun ⟨k, n, hn, hk⟩ ↦ ⟨n, hn, k, hk⟩⟩

theorem Tiled.operand_unique (h : g.Tiled) {i k k' c : Nat} (hk : g.Operand i k c)
    (hk' : g.Operand i k' c) : k = k' := by
  obtain ⟨n, hn, hmem⟩ := hk
  obtain ⟨n', hn', hmem'⟩ := hk'
  cases hn.symm.trans hn'
  obtain ⟨hi, rfl⟩ := Array.getElem?_eq_some_iff.1 hn
  have hnodup : g.nodes[i].children.Nodup := h.nodup_children ⟨i, hi⟩
  have hk : k < g.nodes[i].children.length := (List.getElem?_eq_some_iff.1 hmem).1
  exact (List.getElem?_inj hk hnodup).1 (hmem.trans hmem'.symm)

namespace Extension

variable {e : Extension g}

/-- The graph is tiled, and what was added to `g` is the block of the node that is pointed at. -/
structure Stacked (e : Extension g) : Prop where
  tiled : e.1.graph.Tiled
  last : e.1.root + 1 = e.1.graph.size
  size : e.1.graph.size = g.size + e.1.tree.size

theorem stacked_ofNode {h : Graph} (hgh : g.size ≤ h.size) {n : Node Nat} (hn : n.Below h.size)
    (htiled : h.Tiled) (htiles : n.Tiles h.blockSize h.size)
    (hsize : h.size + 1 = g.size + (Tree.ofNode (n.map h.unfold)).size) :
    (ofNode h hgh n hn).Stacked where
  tiled := htiled.add hn htiles
  last := (h.size_add n hn).symm
  size := by
    have htree : (ofNode h hgh n hn).1.tree = Tree.ofNode (n.map h.unfold) := h.unfold_add_self n hn
    rw [htree, ← hsize]
    exact h.size_add n hn

theorem Stacked.call (h : e.Stacked) (name : String) : (e.call name).Stacked := by
  obtain ⟨⟨k, i⟩, hk⟩ := e
  obtain ⟨htiled, hlast, hsize⟩ := h
  exact stacked_ofNode hk (Node.below_call name i.2) htiled hlast (congrArg (· + 1) hsize)

/-- The left operand is the block in front of the right one. -/
theorem Stacked.bin (h : e.Stacked) {next : (h : Graph) → g.size ≤ h.size → Extension h}
    (hnext : (next e.1.graph e.2).Stacked) (hgrows : e.1.graph.Grows (next e.1.graph e.2).1.graph)
    (op : BinOp) : (e.bin op next).Stacked := by
  obtain ⟨⟨k, i⟩, hk⟩ := e
  simp only [Extension.bin] at hnext hgrows ⊢
  generalize next k hk = e' at hnext hgrows ⊢
  obtain ⟨⟨k', j⟩, hk'⟩ := e'
  have hlast : i + 1 = k.size := h.last
  have hsize : k.size = g.size + (k.unfold i).size := h.size
  have hlast' : j + 1 = k'.size := hnext.last
  have hsize' : k'.size = k.size + (k'.unfold j).size := hnext.size
  have hleft : k'.unfold i = k.unfold i := hgrows.unfold_eq i i.2
  have hbefore : i + k'.blockSize j = j := by
    rw [blockSize]
    omega
  refine stacked_ofNode (hk.trans hk') _ hnext.tiled (.inl ⟨hlast', hbefore⟩) ?_
  simp only [Node.map, Tree.ofNode, Tree.size, hleft]
  omega

/-- The factor is the block behind the operand although it is the left one. -/
theorem Stacked.scale (h : e.Stacked) (factor : Double) : (e.scale factor).Stacked := by
  obtain ⟨⟨k, i⟩, hk⟩ := e
  have hlast : i + 1 = k.size := h.last
  have hsize : k.size = g.size + (k.unfold i).size := h.size
  have hconst : (const k factor).Stacked :=
    stacked_ofNode le_rfl (Node.below_const factor _) h.tiled trivial rfl
  have hshows := shows_const k factor
  simp only [Extension.scale]
  generalize const k factor = e' at hconst hshows ⊢
  obtain ⟨⟨k', j⟩, hk'⟩ := e'
  have hlast' : j + 1 = k'.size := hconst.last
  have hfactor : k'.unfold j = .const factor := hshows.tree
  have hone : (k'.unfold j).size = 1 := congrArg Tree.size hfactor
  have hsize' : k'.size = k.size + (k'.unfold j).size := hconst.size
  have hright : k'.unfold i = k.unfold i := hshows.grows.unfold_eq i i.2
  have hbefore : i + k'.blockSize j = j := by
    rw [blockSize]
    omega
  refine stacked_ofNode (hk.trans hk') _ hconst.tiled (.inr ⟨hlast', hbefore⟩) ?_
  simp only [Node.map, Tree.ofNode, Tree.size, hright]
  omega

end Extension

end Graph

namespace Expr

theorem stacked_addTo (e : Expr) {g : Graph} (hg : g.Tiled) : (e.addTo g).Stacked := by
  induction e generalizing g with
  | number v => exact Graph.Extension.stacked_ofNode le_rfl (Node.below_const v _) hg trivial rfl
  | var v => exact Graph.Extension.stacked_ofNode le_rfl (Node.below_var v _) hg trivial rfl
  | neg e ih => exact (ih hg).scale (-1)
  | bin op l r ihl ihr =>
      exact (ihl hg).bin (ihr (ihl hg).tiled) (r.shows_addTo (l.addTo g).1.graph).grows op
  | call name a ih => exact (ih hg).call name

end Expr

/-- The root comes last; every other node is one operand of one node; the root is made of all nodes;
and what a node is made of is a block of nodes that ends with it. -/
structure RootedGraph.InPostorder (r : RootedGraph) : Prop where
  last : r.root + 1 = r.graph.size
  single : ∀ c < r.graph.size, c ≠ r.root → ∃! place : Nat × Nat, r.graph.Operand place.1 place.2 c
  reachable : r.graph.reachable r.root = Array.replicate r.graph.size true
  block : ∀ i < r.graph.size, ∃ first, r.graph.Block first i

namespace Expr

theorem inPostorder_toGraph (e : Expr) : e.toGraph.InPostorder := by
  have hstacked := e.stacked_addTo (g := .empty) fun i ↦ i.elim0
  have htiled : e.toGraph.graph.Tiled := hstacked.tiled
  have hlast : e.toGraph.root + 1 = e.toGraph.graph.size := hstacked.last
  have hsize : e.toGraph.graph.size = 0 + e.toGraph.graph.blockSize e.toGraph.root := hstacked.size
  have huses : ∀ j < e.toGraph.graph.size, e.toGraph.graph.Uses e.toGraph.root j := by
    intro j hj
    obtain ⟨first, hfirst, huses⟩ := htiled.exists_block e.toGraph.root
    rw [huses]
    omega
  refine ⟨hlast, fun c hc hne ↦ ?_, ?_, fun i hi ↦ htiled.exists_block ⟨i, hi⟩⟩
  · -- The root is made of `c` through an operand, and nothing else has `c` as an operand.
    rcases Relation.ReflTransGen.cases_tail (huses c hc) with hroot | ⟨i, -, hchild⟩
    · exact absurd hroot hne
    · obtain ⟨k, hk⟩ := Graph.child_iff_exists_operand.1 hchild
      refine ⟨(i, k), hk, ?_⟩
      rintro ⟨j, k'⟩ hk'
      have hchild' := Graph.child_iff_exists_operand.2 ⟨k', hk'⟩
      obtain rfl := (e.plants_addTo .empty).single i j c (Nat.zero_le c) hchild hchild'
      rw [htiled.operand_unique hk hk']
  · apply Array.ext
    · rw [Graph.size_reachable, Array.size_replicate, hlast]
    · intro i hi hi'
      have hlive := (Graph.live_reachable_iff e.toGraph.root).2 (huses i (by simpa using hi'))
      rw [Graph.Live, Array.getD_eq_getD_getElem?, Array.getElem?_eq_getElem hi] at hlive
      simpa using hlive

/-- Whatever the tokens are, no node is pushed before its operands, and the graph that is built is
the one of the expression that is read. It is in postorder. -/
theorem read_graph_is_in_postorder (ts : List Token) :
    build ts = ((ofTokens ts).mapError .read).map (fun e ↦ (e.toGraph.graph, e.toGraph.root.val)) ∧
      ∀ e, ofTokens ts = .ok e → e.toGraph.InPostorder :=
  ⟨build_eq ts, fun e _ ↦ e.inPostorder_toGraph⟩

/-- The tokens of `x - -sin(y)`. The factor for the sign comes behind the call. -/
theorem read_graph_is_in_postorder_of_sign :
    let ts : List Token := [⟨.ident "x", 1⟩, ⟨.minus, 3⟩, ⟨.minus, 5⟩, ⟨.ident "sin", 6⟩,
      ⟨.lparen, 9⟩, ⟨.ident "y", 10⟩, ⟨.rparen, 11⟩, ⟨.eof, 12⟩]
    ∃ e, ofTokens ts = .ok e ∧ build ts = .ok (e.toGraph.graph, 5) ∧ e.toGraph.InPostorder ∧
      e.toGraph.graph.nodes =
        #[.var .x, .var .y, .call "sin" 1, .const (-1), .bin .mul 3 2, .bin .sub 0 4] := by
  intro ts
  let e : Expr := .bin .sub (.var .x) (.neg (.call "sin" (.var .y)))
  have hread : ofTokens ts = .ok e := rfl
  obtain ⟨hbuild, horder⟩ := read_graph_is_in_postorder ts
  rw [hread] at hbuild
  exact ⟨e, hread, hbuild, horder e hread, rfl⟩

end Expr

end Formula
