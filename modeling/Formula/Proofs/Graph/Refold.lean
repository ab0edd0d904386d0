import Formula.Proofs.Graph.FoldShape

/-!
# Folding a folded graph

A second folding does node by node what the first one did. A constant is kept back, and when the
node behind it needs it, it gets the place that it had; every other node is added where it was. So
the graphs that folding builds are copied as they are (`Graph.Built.copies`), and folding twice is
the same as folding once.
-/

namespace Formula

/-- What becomes of the node at `i` if it is copied. -/
def Folded.copy (i : Nat) : Node Nat → Folded
  | .const v => .const v
  | _ => .node i

theorem Folded.copy_of_ne {i : Nat} {n : Node Nat} (h : ∀ v, n ≠ .const v) :
    copy i n = .node i := by
  cases n with
  | const v => exact absurd rfl (h v)
  | var v => rfl
  | bin op l r => rfl
  | call name a => rfl

namespace Folding

section Keep

variable {out : Graph} {k l : Folded} {hk : k.Below out.size} {hl : l.Below out.size} {a b : Nat}
  {v : Double} {name : String} {op : BinOp}

theorem keepCall_node (ha : k = .node a) (hn : (Node.call name a).Below out.size) :
    keepCall name k hk = .ofNode out le_rfl (.call name a) hn := by
  subst ha
  rfl

theorem keepCall_const (hv : k = .const v)
    (hn : (Node.call name out.size).Below (out.addConst v).size) :
    keepCall name k hk = .ofNode (out.addConst v) (by simp) (.call name out.size) hn := by
  subst hv
  rfl

theorem keepBin_node_node (ha : k = .node a) (hb : l = .node b)
    (hn : (Node.bin op a b).Below out.size) :
    keepBin op k l hk hl = .ofNode out le_rfl (.bin op a b) hn := by
  subst ha hb
  rfl

theorem keepBin_const_node (hv : k = .const v) (hb : l = .node b)
    (hn : (Node.bin op out.size b).Below (out.addConst v).size) :
    keepBin op k l hk hl = .ofNode (out.addConst v) (by simp) (.bin op out.size b) hn := by
  subst hv hb
  rfl

theorem keepBin_node_const (ha : k = .node a) (hv : l = .const v)
    (hn : (Node.bin op a out.size).Below (out.addConst v).size) :
    keepBin op k l hk hl = .ofNode (out.addConst v) (by simp) (.bin op a out.size) hn := by
  subst ha hv
  rfl

end Keep

variable {t : FunctionTable} {s : Folding} {n : Node Nat} {v : Double}

/-- A node whose operands have stayed where they were is added as it is. -/
theorem step_alone (hn : n.Below s.out.size) (hkind : ∀ v, n ≠ .const v)
    (hlook : ∀ c ∈ n.children, lookup s.known c = .node c) :
    s.step t n = grow s.known s.below (.ofNode s.out le_rfl n hn) := by
  cases n with
  | const v => exact absurd rfl (hkind v)
  | var v => rfl
  | bin op a b =>
      have ha := hlook a (by simp [Node.children])
      have hb := hlook b (by simp [Node.children])
      rcases step_bin t s op a b with ⟨v, w, hv, -, -⟩ | ⟨-, hstep⟩
      · cases ha.symm.trans hv
      · rw [hstep, keepBin_node_node ha hb hn]
  | call name a =>
      have ha := hlook a (by simp [Node.children])
      rcases step_call t s name a with ⟨v, f, hv, -, -⟩ | ⟨-, hstep⟩
      · cases ha.symm.trans hv
      · rw [hstep, keepCall_node ha hn]

/-- A node that uses the next free place and has found a constant for it is added with the constant
in this place. -/
theorem step_paired (hn : n.Below (s.out.addConst v).size) (huse : s.out.size ∈ n.children)
    (hstuck : n.StuckOn t s.out.size) (hconst : lookup s.known s.out.size = .const v)
    (hlook : ∀ c ∈ n.children, c ≠ s.out.size → lookup s.known c = .node c) :
    s.step t n = grow s.known s.below (.ofNode (s.out.addConst v) (by simp) n hn) := by
  cases n with
  | const w => simp [Node.children] at huse
  | var w => simp [Node.children] at huse
  | bin op a b =>
      have hside : a = s.out.size ∧ b ≠ s.out.size ∨ a ≠ s.out.size ∧ b = s.out.size := by
        simp only [Node.children, List.mem_cons, List.not_mem_nil, or_false] at huse
        simp only [Node.StuckOn] at hstuck
        omega
      rcases hside with ⟨rfl, hb⟩ | ⟨ha, rfl⟩
      · have hb := hlook b (by simp [Node.children]) hb
        rcases step_bin t s op s.out.size b with ⟨_, w, -, hw, -⟩ | ⟨-, hstep⟩
        · cases hb.symm.trans hw
        · rw [hstep, keepBin_const_node hconst hb hn]
      · have ha := hlook a (by simp [Node.children]) ha
        rcases step_bin t s op a s.out.size with ⟨w, _, hw, -, -⟩ | ⟨-, hstep⟩
        · cases ha.symm.trans hw
        · rw [hstep, keepBin_node_const ha hconst hn]
  | call name a =>
      obtain rfl : s.out.size = a := by simpa [Node.children] using huse
      rcases step_call t s name s.out.size with ⟨_, f, -, hf, -⟩ | ⟨-, hstep⟩
      · rw [Node.StuckOn, FunctionTable.contains, hf] at hstuck
        cases hstuck
      · rw [hstep, keepCall_const hconst hn]

/-- The new graph is `g` itself, and every node has become what it was. -/
structure Copies (g : Graph) (s : Folding) : Prop where
  out : s.out = g
  size : s.known.size = g.size
  look : ∀ (i : Nat) n, g.nodes[i]? = some n → lookup s.known i = .copy i n

theorem Copies.lookup_eq_node {g : Graph} (h : s.Copies g) {c : Nat} (hc : c < g.size)
    (hopen : ¬ g.IsConst c) : lookup s.known c = .node c := by
  have hget : g.nodes[c]? = some (g.node ⟨c, hc⟩) := Array.getElem?_eq_getElem hc
  rw [h.look c _ hget]
  apply Folded.copy_of_ne
  intro v hv
  exact hopen ⟨v, hget.trans (congrArg some hv)⟩

theorem Copies.lookup_constant {g : Graph} (h : s.Copies g) {i : Nat}
    (hn : (g.addConst v).nodes[i]? = some n) : lookup (s.constant v).known i = .copy i n := by
  rw [Graph.getElem?_addConst] at hn
  rw [Folding.lookup_constant h.size]
  split at hn
  · next hi =>
      cases hn
      exact if_pos hi
  · next hi => rw [if_neg hi, h.look i n hn]

theorem copies_grow {out h : Graph} {known : Array Folded} {below : ∀ k ∈ known, k.Below out.size}
    (hsize : known.size = h.size)
    (hlook : ∀ (i : Nat) m, h.nodes[i]? = some m → lookup known i = .copy i m)
    (hle : out.size ≤ h.size) (hn : n.Below h.size) (hkind : ∀ v, n ≠ .const v) :
    (grow known below (.ofNode h hle n hn)).Copies (h.add n hn) where
  out := rfl
  size := by rw [grow, Array.size_push, hsize, Graph.size_add]
  look i m hm := by
    rw [Graph.getElem?_add] at hm
    rw [grow, lookup_push, hsize]
    split at hm
    · next hi =>
        cases hm
        rw [if_pos hi, Folded.copy_of_ne hkind, hi]
        rfl
    · next hi => rw [if_neg hi, hlook i m hm]

end Folding

namespace Graph

variable {g : Graph} {t : FunctionTable}

theorem foldl_add {α : Type} (f : α → Node Nat → α) (init : α) {n : Node Nat}
    (hn : n.Below g.size) : (g.add n hn).nodes.foldl f init = f (g.nodes.foldl f init) n := by
  rw [add, Array.foldl_push]

theorem Built.copies (hg : g.Built t) : (g.nodes.foldl (Folding.step t) .start).Copies g := by
  induction hg with
  | empty => exact ⟨rfl, rfl, fun i n hn ↦ absurd (lt_size_of_getElem? hn) (Nat.not_lt_zero i)⟩
  | @alone g n hg hn hkind hopen ih =>
      rw [foldl_add]
      generalize g.nodes.foldl (Folding.step t) .start = s at ih
      obtain rfl := ih.out
      rw [Folding.step_alone hn hkind fun c hc ↦ ih.lookup_eq_node (hn c hc) (hopen c hc)]
      exact Folding.copies_grow ih.size ih.look le_rfl hn hkind
  | @paired g n hg v hn huse hopen hstuck ih =>
      have hconst : (g.addConst v).nodes.foldl (Folding.step t) .start =
          (g.nodes.foldl (Folding.step t) .start).step t (.const v) :=
        foldl_add _ _ (Node.below_const v _)
      rw [foldl_add, hconst]
      generalize g.nodes.foldl (Folding.step t) .start = s at ih
      obtain rfl := ih.out
      have hkind : ∀ w, n ≠ .const w := by
        rintro w rfl
        simp [Node.children] at huse
      have hlook := Folding.lookup_constant ih.size v
      rw [Folding.step, Folding.step_paired (s := s.constant v) hn huse hstuck]
      · apply Folding.copies_grow _ (fun i m ↦ ih.lookup_constant) _ hn hkind
        rw [Folding.constant, Array.size_push, ih.size, size_addConst]
      · exact (hlook _).trans (if_pos rfl)
      · intro c hc (hne : c ≠ s.out.size)
        have hlt := lt_of_below_addConst hn hc hne
        rw [hlook, if_neg hne, ih.lookup_eq_node hlt (hopen c hc hne)]

end Graph

namespace RootedGraph

variable {r : RootedGraph} {t : FunctionTable}

theorem marked_of_whole (h : r.Whole) :
    r.graph.marked r.root = r.graph.nodes.map fun n ↦ (n, true) := by
  apply Array.ext
  · rw [Graph.size_marked, Array.size_map, h.last]
    rfl
  · intro i hi hi'
    obtain ⟨hn, hb⟩ := Graph.getElem?_marked (Array.getElem?_eq_getElem hi)
    have hlt := Graph.lt_size_of_getElem? hn
    have hnode := (Array.getElem?_eq_getElem hlt).symm.trans hn
    rw [Array.getElem_map]
    exact Prod.ext (Option.some.inj hnode).symm (hb.2 (h.uses i hlt))

theorem folding_of_whole (h : r.Whole) :
    r.folding t = r.graph.nodes.foldl (Folding.step t) .start := by
  rw [folding, marked_of_whole h, Array.foldl_map]
  rfl

theorem eq_of_graph_of_root {q : RootedGraph} (hgraph : q.graph = r.graph)
    (hroot : q.root.val = r.root.val) : q = r := by
  obtain ⟨g, i⟩ := q
  obtain ⟨g', i'⟩ := r
  cases hgraph
  cases Fin.ext hroot
  rfl

theorem fold_of_built (h : r.Whole) (hbuilt : r.graph.Built t)
    (hroot : ¬ r.graph.IsConst r.root) : r.fold t = r := by
  have hcopies : (r.folding t).Copies r.graph := by
    rw [folding_of_whole h]
    exact hbuilt.copies
  obtain ⟨hgraph, hindex⟩ := fold_of_lookup (hcopies.lookup_eq_node r.root.2 hroot)
  exact eq_of_graph_of_root (hgraph.trans hcopies.out) hindex

theorem fold_constant (v : Double) : (constant v).fold t = constant v := by
  apply fold_eq_constant
  rw [folding_of_whole (whole_constant v)]
  rfl

/-- Folding a folded formula changes nothing: every node is found again at its index, and the root
is the same. -/
theorem folding_twice_is_folding_once (r : RootedGraph) (t : FunctionTable) :
    (r.fold t).fold t = r.fold t := by
  cases hroot : Folding.lookup (r.folding t).known r.root with
  | const v => rw [fold_eq_constant hroot, fold_constant]
  | node j =>
      obtain ⟨hgraph, hindex⟩ := fold_of_lookup hroot
      apply fold_of_built (r.whole_fold t)
      · rw [hgraph]
        exact (r.tidy_folding t).built
      · rw [hindex, hgraph]
        exact (r.tidy_folding t).stays _ _ hroot

end RootedGraph

end Formula
