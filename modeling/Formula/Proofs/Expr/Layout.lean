import Formula.Expr.Basic
import Formula.Proofs.Graph.FoldOrder

/-!
# The layout of an expression

The nodes of an expression are laid out behind a graph as a tree of their own: they use only each
other, and none is used twice. `Graph.Grove` says this of any number of trees behind a graph, with
the list of their roots, which nothing uses yet. A node on top of some of these roots is the root of
a larger tree, so an expression shares no nodes (`Expr.unshared_toGraph`).
-/

namespace Formula

namespace Graph

variable {g h k : Graph} {roots roots' : List Nat}

theorem Child.lt_size {i c : Nat} (hchild : g.Child i c) : i < g.size := by
  obtain ⟨n, hn, -⟩ := hchild
  exact lt_size_of_getElem? hn

theorem child_add_iff {n : Node Nat} (hn : n.Below g.size) {i c : Nat} :
    (g.add n hn).Child i c ↔ i = g.size ∧ c ∈ n.children ∨ g.Child i c := by
  have hlast : ¬ g.Child g.size c := fun hchild ↦ lt_irrefl _ hchild.lt_size
  unfold Child
  rw [getElem?_add]
  split
  · next hi =>
      subst hi
      simp only [Option.some.injEq, true_and]
      constructor
      · rintro ⟨m, rfl, hc⟩
        exact .inl hc
      · rintro (hc | hold)
        · exact ⟨n, rfl, hc⟩
        · exact absurd hold hlast
  · next hi => simp [hi]

/-- Behind the nodes of `g` come trees with the given roots. -/
structure Grove (g h : Graph) (roots : List Nat) : Prop where
  kept : ∀ i < g.size, h.nodes[i]? = g.nodes[i]?
  fresh : ∀ i c, g.size ≤ i → h.Child i c → g.size ≤ c
  single : ∀ i j c, g.size ≤ c → h.Child i c → h.Child j c → i = j
  free : ∀ c ∈ roots, g.size ≤ c ∧ c < h.size ∧ ∀ i, ¬ h.Child i c

namespace Grove

theorem refl (g : Graph) : g.Grove g [] where
  kept _ _ := rfl
  fresh _ _ hi hchild := absurd hchild.lt_size hi.not_gt
  single _ _ _ hc hchild _ := absurd (hchild.lt.trans hchild.lt_size) hc.not_gt
  free _ hc := absurd hc List.not_mem_nil

/-- A node on top of some of the roots. -/
theorem add (hgrove : g.Grove h roots) (hsize : g.size ≤ h.size) {n : Node Nat}
    (hn : n.Below h.size) (hsub : ∀ c ∈ n.children, c ∈ roots) :
    g.Grove (h.add n hn) [h.size] where
  kept i hi := by
    rw [getElem?_add, if_neg (hi.trans_le hsize).ne]
    exact hgrove.kept i hi
  fresh i c hi hchild := by
    rcases (child_add_iff hn).1 hchild with ⟨-, hc⟩ | hold
    · exact (hgrove.free c (hsub c hc)).1
    · exact hgrove.fresh i c hi hold
  single i j c hc hi hj := by
    rcases (child_add_iff hn).1 hi with ⟨rfl, hic⟩ | hi
    · rcases (child_add_iff hn).1 hj with ⟨rfl, -⟩ | hj
      · rfl
      · exact absurd hj ((hgrove.free c (hsub c hic)).2.2 j)
    · rcases (child_add_iff hn).1 hj with ⟨-, hjc⟩ | hj
      · exact absurd hi ((hgrove.free c (hsub c hjc)).2.2 i)
      · exact hgrove.single i j c hc hi hj
  free c hc := by
    obtain rfl : c = h.size := List.mem_singleton.1 hc
    refine ⟨hsize, by simp, fun i hchild ↦ ?_⟩
    rcases (child_add_iff hn).1 hchild with ⟨-, hmem⟩ | hold
    · exact lt_irrefl _ (hn _ hmem)
    · exact lt_irrefl _ (hold.lt.trans hold.lt_size)

/-- Trees behind trees. The later ones do not use the earlier ones. -/
theorem trans (hgh : g.Grove h roots) (hhk : h.Grove k roots') (hsize : g.size ≤ h.size)
    (hsize' : h.size ≤ k.size) : g.Grove k (roots ++ roots') := by
  have hcases : ∀ {i c}, k.Child i c → i < h.size ∧ h.Child i c ∨ h.size ≤ c := by
    rintro i c hchild
    by_cases hi : i < h.size
    · obtain ⟨n, hn, hc⟩ := hchild
      exact .inl ⟨hi, n, (hhk.kept i hi).symm.trans hn, hc⟩
    · exact .inr (hhk.fresh i c (not_lt.1 hi) hchild)
  refine ⟨?_, ?_, ?_, ?_⟩
  · intro i hi
    exact (hhk.kept i (hi.trans_le hsize)).trans (hgh.kept i hi)
  · intro i c hi hchild
    rcases hcases hchild with ⟨-, hold⟩ | hc
    · exact hgh.fresh i c hi hold
    · exact hsize.trans hc
  · intro i j c hc hi hj
    rcases hcases hi with ⟨-, hi'⟩ | hlarge
    · rcases hcases hj with ⟨-, hj'⟩ | hlarge
      · exact hgh.single i j c hc hi' hj'
      · exact hhk.single i j c hlarge hi hj
    · exact hhk.single i j c hlarge hi hj
  · intro c hc
    rcases List.mem_append.1 hc with hc | hc
    · obtain ⟨hlow, hhigh, hfree⟩ := hgh.free c hc
      refine ⟨hlow, hhigh.trans_le hsize', fun i hchild ↦ ?_⟩
      rcases hcases hchild with ⟨-, hold⟩ | hlarge
      · exact hfree i hold
      · exact hlarge.not_gt hhigh
    · obtain ⟨hlow, hhigh, hfree⟩ := hhk.free c hc
      exact ⟨hsize.trans hlow, hhigh, hfree⟩

end Grove

namespace Extension

variable {e : Extension g}

/-- What is added to `g` is one tree, and its root is the node that is pointed at. -/
def Plants (e : Extension g) : Prop := g.Grove e.1.graph [e.1.root.val]

theorem plants_leaf {n : Node Nat} (hn : n.Below g.size) (hleaf : n.children = []) :
    (ofNode g le_rfl n hn).Plants := by
  apply (Grove.refl g).add le_rfl hn
  simp [hleaf]

theorem Plants.call (h : e.Plants) (name : String) : (e.call name).Plants := by
  obtain ⟨⟨k, i⟩, hk⟩ := e
  apply Grove.add h hk (Node.below_call name i.2)
  simp [Node.children]

theorem Plants.bin (h : e.Plants) {next : (h : Graph) → g.size ≤ h.size → Extension h}
    (hnext : (next e.1.graph e.2).Plants) (op : BinOp) : (e.bin op next).Plants := by
  obtain ⟨⟨k, i⟩, hk⟩ := e
  simp only [Extension.bin] at hnext ⊢
  generalize next k hk = e' at hnext ⊢
  obtain ⟨⟨k', j⟩, hk'⟩ := e'
  apply (Grove.trans h hnext hk hk').add (hk.trans hk')
    (Node.below_bin op (i.2.trans_le hk') j.2)
  simp [Node.children]

theorem Plants.scale (h : e.Plants) (factor : Double) : (e.scale factor).Plants := by
  obtain ⟨⟨k, i⟩, hk⟩ := e
  have hconst : (const k factor).Plants := plants_leaf (Node.below_const factor _) rfl
  simp only [Extension.scale]
  generalize const k factor = e' at hconst ⊢
  obtain ⟨⟨k', j⟩, hk'⟩ := e'
  apply (Grove.trans h hconst hk hk').add (hk.trans hk')
    (Node.below_bin .mul j.2 (i.2.trans_le hk'))
  simp [Node.children]

end Extension

end Graph

/-- No node that the root is made of is an operand of two of them. -/
def RootedGraph.Unshared (r : RootedGraph) : Prop :=
  ∀ i j c, r.graph.Uses r.root i → r.graph.Uses r.root j → r.graph.Child i c →
    r.graph.Child j c → i = j

namespace Expr

theorem plants_addTo (e : Expr) (g : Graph) : (e.addTo g).Plants := by
  induction e generalizing g with
  | number v => exact Graph.Extension.plants_leaf (Node.below_const v _) rfl
  | var v => exact Graph.Extension.plants_leaf (Node.below_var v _) rfl
  | neg e ih => exact (ih g).scale (-1)
  | bin op l r ihl ihr => exact (ihl g).bin (ihr _) op
  | call name a ih => exact (ih g).call name

theorem unshared_toGraph (e : Expr) : e.toGraph.Unshared := fun i j c _ _ ↦
  (e.plants_addTo .empty).single i j c (Nat.zero_le c)

end Expr

end Formula
