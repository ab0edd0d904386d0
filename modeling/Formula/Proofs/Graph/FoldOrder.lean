import Formula.Proofs.Graph.Checked
import Formula.Proofs.Graph.Value

/-!
# Folding keeps the order of nodes

A node that stays gets a new index, larger than those of all nodes that stayed before it, and only
constants are added besides. A node that uses one that stays, stays too. So the calls without an
entry are the same before and after, in the same order, and the first of them is the same call:
folding changes neither the value of a formula nor the function that evaluation reports
(`RootedGraph.fold_keeps_evaluation`).
-/

namespace Formula

namespace Graph

variable {g h k : Graph} {t : FunctionTable}

/-- The nodes of `h` are those of `g`, followed by constants. -/
structure PaddedBy (g h : Graph) : Prop where
  size_le : g.size ≤ h.size
  kept : ∀ i < g.size, h.nodes[i]? = g.nodes[i]?
  const : ∀ i n, g.size ≤ i → h.nodes[i]? = some n → ∃ v, n = .const v

theorem getElem?_add (g : Graph) (n : Node Nat) (hn : n.Below g.size) (i : Nat) :
    (g.add n hn).nodes[i]? = if i = g.size then some n else g.nodes[i]? :=
  Array.getElem?_push

theorem lt_size_of_getElem? {n : Node Nat} {i : Nat} (h : g.nodes[i]? = some n) : i < g.size :=
  (Array.getElem?_eq_some_iff.1 h).1

namespace PaddedBy

theorem refl (g : Graph) : g.PaddedBy g where
  size_le := le_rfl
  kept _ _ := rfl
  const _ _ hi hn := absurd (lt_size_of_getElem? hn) hi.not_gt

theorem trans (hgh : g.PaddedBy h) (hhk : h.PaddedBy k) : g.PaddedBy k where
  size_le := hgh.size_le.trans hhk.size_le
  kept i hi := (hhk.kept i (hi.trans_le hgh.size_le)).trans (hgh.kept i hi)
  const i n hi hn := by
    by_cases hih : i < h.size
    · exact hgh.const i n hi (hhk.kept i hih ▸ hn)
    · exact hhk.const i n (not_lt.1 hih) hn

theorem add_const (g : Graph) (v : Double) :
    g.PaddedBy (g.add (.const v) (Node.below_const v _)) where
  size_le := by
    rw [size_add]
    exact Nat.le_succ _
  kept i hi := by rw [getElem?_add, if_neg hi.ne]
  const i n hi hn := by
    rw [getElem?_add] at hn
    split at hn
    · cases hn
      exact ⟨v, rfl⟩
    · exact absurd (lt_size_of_getElem? hn) hi.not_gt

end PaddedBy

/-- The node that is pointed at is `n`, and only constants have been added before it. -/
def Extension.Builds (e : Extension g) (n : Node Nat) : Prop :=
  ∃ (h : Graph) (hgh : g.size ≤ h.size) (hn : n.Below h.size),
    g.PaddedBy h ∧ e = ofNode h hgh n hn

namespace Extension.Builds

variable {e : Extension g} {n : Node Nat}

theorem size_le_root (h : e.Builds n) : g.size ≤ e.1.root := by
  obtain ⟨h, hgh, hn, -, rfl⟩ := h
  exact hgh

theorem node_root (h : e.Builds n) : e.1.graph.nodes[e.1.root.val]? = some n := by
  obtain ⟨h, hgh, hn, -, rfl⟩ := h
  exact (h.getElem?_add n hn _).trans (if_pos rfl)

theorem kept (h : e.Builds n) {i : Nat} (hi : i < g.size) :
    e.1.graph.nodes[i]? = g.nodes[i]? := by
  obtain ⟨h, hgh, hn, hpad, rfl⟩ := h
  exact (h.getElem?_add n hn i).trans ((if_neg (hi.trans_le hgh).ne).trans (hpad.kept i hi))

theorem node_cases (h : e.Builds n) {i : Nat} {m : Node Nat}
    (hm : e.1.graph.nodes[i]? = some m) :
    i < g.size ∧ g.nodes[i]? = some m ∨ i = e.1.root ∧ m = n ∨ ∃ v, m = .const v := by
  by_cases hi : i < g.size
  · exact .inl ⟨hi, h.kept hi ▸ hm⟩
  · obtain ⟨h, hgh, hn, hpad, rfl⟩ := h
    have hadd : (h.add n hn).nodes[i]? = some m := hm
    rw [getElem?_add] at hadd
    split at hadd
    · next hlast =>
        cases hadd
        exact .inr (.inl ⟨hlast, rfl⟩)
    · exact .inr (.inr (hpad.const i m (not_lt.1 hi) hadd))

end Extension.Builds

/-- A formula that calls a function without an entry has a node with such a call. -/
theorem exists_call_of_not_known (i : Fin g.size) (h : ¬ (g.unfold i).Known t) :
    ∃ j name a, g.Uses i j ∧ g.nodes[j]? = some (.call name a) ∧ t.get? name = none := by
  have hget : ∀ {i : Fin g.size} {n}, g.node i = n → g.nodes[i.val]? = some n :=
    fun hn ↦ Array.getElem?_eq_some_iff.2 ⟨_, hn⟩
  induction i using node_induction with
  | const i v hi =>
      rw [unfold_const hi] at h
      exact absurd trivial h
  | var i v hi =>
      rw [unfold_var hi] at h
      exact absurd trivial h
  | bin i op l r hi ihl ihr =>
      have hchild : ∀ c ∈ [l.val, r.val], g.Child i c := fun c hc ↦ ⟨_, hget hi, hc⟩
      rw [unfold_bin hi, Tree.Known, not_and_or] at h
      rcases h with h | h
      · obtain ⟨j, name, a, huses, hj⟩ := ihl h
        exact ⟨j, name, a, .head (hchild l (by simp)) huses, hj⟩
      · obtain ⟨j, name, a, huses, hj⟩ := ihr h
        exact ⟨j, name, a, .head (hchild r (by simp)) huses, hj⟩
  | call i name arg hi ih =>
      rw [unfold_call hi, Tree.Known, not_and_or] at h
      rcases h with h | h
      · refine ⟨i, name, arg, .refl, hget hi, ?_⟩
        simpa [FunctionTable.contains] using h
      · obtain ⟨j, name', a, huses, hj⟩ := ih h
        have hchild : g.Child i arg := ⟨_, hget hi, by simp [Node.children]⟩
        exact ⟨j, name', a, .head hchild huses, hj⟩

theorem not_known_of_call {i : Nat} {name : String} {a : Nat}
    (h : g.nodes[i]? = some (.call name a)) (hname : t.get? name = none) :
    ¬ (g.unfold i).Known t := by
  intro hknown
  obtain ⟨hi, hnode⟩ := Array.getElem?_eq_some_iff.1 h
  rw [g.unfold_eq i hi, hnode] at hknown
  obtain ⟨f, hf⟩ := (t.contains_eq_true_iff name).1 hknown.1
  rw [hname] at hf
  cases hf

end Graph

namespace Folded

/-- Placing adds at most a constant, and does not move what has a node. -/
theorem paddedBy_place (g : Graph) (k : Folded) (hk : k.Below g.size) :
    g.PaddedBy (k.place g hk).1.graph := by
  cases k with
  | const v => exact .add_const g v
  | node i => exact .refl g

theorem root_place_of_eq_node {g : Graph} {k : Folded} (hk : k.Below g.size) {j : Nat}
    (h : k = .node j) : (k.place g hk).1.root.val = j := by
  subst h
  rfl

end Folded

namespace Folding

variable {t : FunctionTable}

/-- The node `m` is `n` with other operands; what has become of the operands is among them. -/
structure Keeps (known : Array Folded) (n m : Node Nat) : Prop where
  operand : ∀ c ∈ n.children, ∀ j, lookup known c = .node j → j ∈ m.children
  call : ∀ name, (∃ a, n = .call name a) ↔ ∃ a, m = .call name a

theorem builds_keepCall {out : Graph} (name : String) {k : Folded} (hk : k.Below out.size) :
    (keepCall name k hk).Builds (.call name (k.place out hk).1.root) :=
  ⟨_, (k.place out hk).2, _, k.paddedBy_place out hk, rfl⟩

/-- The place of the right operand does not depend on what is added for the left one. -/
theorem exists_builds_keepBin {out : Graph} (op : BinOp) {k l : Folded} (hk : k.Below out.size)
    (hl : l.Below out.size) :
    ∃ i j, (keepBin op k l hk hl).Builds (.bin op i j) ∧
      (∀ i', k = .node i' → i = i') ∧ ∀ j', l = .node j' → j = j' := by
  have hl' := hl.mono (k.place out hk).2
  refine ⟨(k.place out hk).1.root, (l.place _ hl').1.root, ?_, ?_, ?_⟩
  · exact ⟨_, (k.place out hk).2.trans (l.place _ hl').2, _,
      (k.paddedBy_place out hk).trans (l.paddedBy_place _ hl'), rfl⟩
  · intro i' h
    exact Folded.root_place_of_eq_node hk h
  · intro j' h
    exact Folded.root_place_of_eq_node hl' h

/-- What a step can do: the node becomes a constant, because nothing in it depends on the inputs,
or a node like it is built. -/
theorem step_cases (t : FunctionTable) (s : Folding) (n : Node Nat) :
    (∃ v, s.step t n = s.constant v ∧
      (∀ c ∈ n.children, ∃ w, lookup s.known c = .const w) ∧
      ∀ name a, n = .call name a → ∃ f, t.get? name = some f) ∨
    ∃ (e : Graph.Extension s.out) (m : Node Nat), s.step t n = grow s.known s.below e ∧
      e.Builds m ∧ Keeps s.known n m := by
  cases n with
  | const v =>
      refine .inl ⟨v, rfl, ?_, ?_⟩
      · intro c hc
        simp [Node.children] at hc
      · rintro name a ⟨⟩
  | var v =>
      have hbuilds : (Graph.Extension.var s.out v).Builds (.var v) :=
        ⟨s.out, le_rfl, Node.below_var v _, .refl _, rfl⟩
      refine .inr ⟨_, _, rfl, hbuilds, ?_, ?_⟩
      · intro c hc
        simp [Node.children] at hc
      · simp
  | bin op l r =>
      rcases step_bin t s op l r with ⟨a, b, ha, hb, hstep⟩ | ⟨-, hstep⟩
      · refine .inl ⟨_, hstep, ?_, ?_⟩
        · intro c hc
          simp only [Node.children, List.mem_cons, List.not_mem_nil, or_false] at hc
          rcases hc with rfl | rfl
          · exact ⟨a, ha⟩
          · exact ⟨b, hb⟩
        · rintro name a ⟨⟩
      · obtain ⟨i, j, hbuilds, hi, hj⟩ := exists_builds_keepBin op (lookup_below s.below l)
          (lookup_below s.below r)
        refine .inr ⟨_, _, hstep, hbuilds, ?_, by simp⟩
        intro c hc j' hc'
        simp only [Node.children, List.mem_cons, List.not_mem_nil, or_false] at hc ⊢
        rcases hc with rfl | rfl
        · exact .inl (hi j' hc').symm
        · exact .inr (hj j' hc').symm
  | call name a =>
      rcases step_call t s name a with ⟨v, f, hv, hf, hstep⟩ | ⟨-, hstep⟩
      · refine .inl ⟨_, hstep, ?_, ?_⟩
        · intro c hc
          simp only [Node.children, List.mem_singleton] at hc
          exact ⟨v, hc ▸ hv⟩
        · rintro name' a' ⟨⟩
          exact ⟨f, hf⟩
      · refine .inr ⟨_, _, hstep, builds_keepCall name (lookup_below s.below a), ?_, by simp⟩
        intro c hc j hc'
        simp only [Node.children, List.mem_singleton] at hc ⊢
        subst hc
        exact (Folded.root_place_of_eq_node _ hc').symm

theorem lt_size_of_lookup {s : Folding} {i j : Nat} (h : lookup s.known i = .node j) :
    i < s.known.size ∧ j < s.out.size := by
  constructor
  · by_contra hi
    rw [lookup, Array.getD_eq_getD_getElem?, Array.getElem?_eq_none (not_lt.1 hi)] at h
    cases h
  · have hbelow := lookup_below s.below i
    rw [h] at hbelow
    exact hbelow

/-- The nodes before `k` that stay do so in their order, and so do the calls without an entry. -/
structure Orderly (r : RootedGraph) (t : FunctionTable) (k : Nat) (s : Folding) : Prop where
  size : s.known.size = k
  increasing : ∀ i i' j j', i < i' → lookup s.known i = .node j → lookup s.known i' = .node j' →
    j < j'
  linked : ∀ i c j, i < k → r.graph.Uses r.root i → r.graph.Child i c →
    lookup s.known c = .node j → ∃ j', lookup s.known i = .node j' ∧ s.out.Child j' j
  stays : ∀ i name a, i < k → r.graph.Uses r.root i → r.graph.nodes[i]? = some (.call name a) →
    t.get? name = none → ∃ j a', lookup s.known i = .node j ∧ s.out.nodes[j]? = some (.call name a')
  origin : ∀ j name a, s.out.nodes[j]? = some (.call name a) →
    ∃ i a', r.graph.Uses r.root i ∧ r.graph.nodes[i]? = some (.call name a') ∧
      lookup s.known i = .node j

variable {r : RootedGraph} {k : Nat} {s : Folding}

/-- A node that is used becomes a constant only if nothing that stays is an operand of it. -/
theorem Orderly.constant (h : s.Orderly r t k) (v : Double)
    (hk : r.graph.Uses r.root k →
      (∀ c, r.graph.Child k c → ∃ w, lookup s.known c = .const w) ∧
      ∀ name a, r.graph.nodes[k]? = some (.call name a) → ∃ f, t.get? name = some f) :
    (s.constant v).Orderly r t (k + 1) := by
  have hnode : ∀ {i j}, lookup (s.constant v).known i = .node j → lookup s.known i = .node j := by
    intro i j hi
    rw [Folding.constant, lookup_push] at hi
    split at hi
    · cases hi
    · exact hi
  have hold : ∀ {i j}, lookup s.known i = .node j → lookup (s.constant v).known i = .node j := by
    intro i j hi
    rw [Folding.constant, lookup_push, if_neg (lt_size_of_lookup hi).1.ne, hi]
  refine ⟨?_, ?_, ?_, ?_, ?_⟩
  · rw [Folding.constant, Array.size_push, h.size]
  · intro i i' j j' hii hi hi'
    exact h.increasing i i' j j' hii (hnode hi) (hnode hi')
  · intro i c j hi huses hchild hc
    rcases Nat.lt_succ_iff_lt_or_eq.1 hi with hlt | rfl
    · obtain ⟨j', hj', hout⟩ := h.linked i c j hlt huses hchild (hnode hc)
      exact ⟨j', hold hj', hout⟩
    · obtain ⟨w, hw⟩ := (hk huses).1 c hchild
      rw [hnode hc] at hw
      cases hw
  · intro i name a hi huses hn hnone
    rcases Nat.lt_succ_iff_lt_or_eq.1 hi with hlt | rfl
    · obtain ⟨j, a', hj, hout⟩ := h.stays i name a hlt huses hn hnone
      exact ⟨j, a', hold hj, hout⟩
    · obtain ⟨f, hf⟩ := (hk huses).2 name a hn
      rw [hnone] at hf
      cases hf
  · intro j name a hj
    obtain ⟨i, a', huses, hn, hi⟩ := h.origin j name a hj
    exact ⟨i, a', huses, hn, hold hi⟩

theorem Orderly.grow (h : s.Orderly r t k) {n m : Node Nat} {e : Graph.Extension s.out}
    (hn : r.graph.nodes[k]? = some n) (huses : r.graph.Uses r.root k) (he : e.Builds m)
    (hm : Keeps s.known n m) : (grow s.known s.below e).Orderly r t (k + 1) := by
  have hlook : ∀ i, lookup (Folding.grow s.known s.below e).known i =
      if i = k then .node e.1.root else lookup s.known i := by
    intro i
    rw [Folding.grow, lookup_push, h.size]
  have hold : ∀ {i j}, lookup s.known i = .node j →
      lookup (Folding.grow s.known s.below e).known i = .node j := by
    intro i j hi
    have hik : i ≠ k := h.size ▸ (lt_size_of_lookup hi).1.ne
    rw [hlook, if_neg hik, hi]
  have hkept : ∀ {j : Nat} {n : Node Nat}, s.out.nodes[j]? = some n →
      e.1.graph.nodes[j]? = some n := by
    intro j n hj
    rw [he.kept (Graph.lt_size_of_getElem? hj), hj]
  refine ⟨?_, ?_, ?_, ?_, ?_⟩
  · rw [Folding.grow, Array.size_push, h.size]
  · intro i i' j j' hii hi hi'
    -- The node that is added last stands behind all others.
    rw [hlook] at hi hi'
    split at hi'
    · next hik =>
        cases hi'
        rw [if_neg (by omega)] at hi
        exact (lt_size_of_lookup hi).2.trans_le he.size_le_root
    · next hik =>
        split at hi
        · have hlt := (lt_size_of_lookup hi').1
          rw [h.size] at hlt
          omega
        · exact h.increasing i i' j j' hii hi hi'
  · intro i c j hi hused hchild hc
    have hck : c ≠ k := by
      have := hchild.lt
      omega
    rw [hlook, if_neg hck] at hc
    rcases Nat.lt_succ_iff_lt_or_eq.1 hi with hlt | rfl
    · obtain ⟨j', hj', n', hn', hmem⟩ := h.linked i c j hlt hused hchild hc
      exact ⟨j', hold hj', n', hkept hn', hmem⟩
    · obtain ⟨n', hn', hmem⟩ := hchild
      rw [hn] at hn'
      cases hn'
      refine ⟨e.1.root, by rw [hlook, if_pos rfl], m, he.node_root, ?_⟩
      exact hm.operand c hmem j hc
  · intro i name a hi hused hcall hnone
    rcases Nat.lt_succ_iff_lt_or_eq.1 hi with hlt | rfl
    · obtain ⟨j, a', hj, hout⟩ := h.stays i name a hlt hused hcall hnone
      exact ⟨j, a', hold hj, hkept hout⟩
    · rw [hn] at hcall
      cases hcall
      obtain ⟨a', rfl⟩ := (hm.call name).1 ⟨a, rfl⟩
      exact ⟨e.1.root, a', by rw [hlook, if_pos rfl], he.node_root⟩
  · intro j name a hj
    rcases he.node_cases hj with ⟨-, hj⟩ | ⟨rfl, rfl⟩ | ⟨v, hv⟩
    · obtain ⟨i, a', hused, hi, hlookup⟩ := h.origin j name a hj
      exact ⟨i, a', hused, hi, hold hlookup⟩
    · obtain ⟨a', rfl⟩ := (hm.call name).2 ⟨a, rfl⟩
      exact ⟨k, a', huses, hn, by rw [hlook, if_pos rfl]⟩
    · cases hv

theorem Orderly.stepMarked (h : s.Orderly r t k) {n : Node Nat} {b : Bool}
    (hn : r.graph.nodes[k]? = some n) (hb : b = true ↔ r.graph.Uses r.root k) :
    (s.stepMarked t (n, b)).Orderly r t (k + 1) := by
  cases b with
  | false => exact h.constant 0 fun huses ↦ absurd (hb.2 huses) Bool.false_ne_true
  | true =>
      rcases step_cases t s n with ⟨v, hstep, hconst, hcall⟩ | ⟨e, m, hstep, he, hm⟩
      · rw [Folding.stepMarked, hstep]
        refine h.constant v fun _ ↦ ⟨?_, ?_⟩
        · rintro c ⟨n', hn', hc⟩
          rw [hn] at hn'
          cases hn'
          exact hconst c hc
        · intro name a hcall'
          rw [hn] at hcall'
          cases hcall'
          exact hcall name a rfl
      · rw [Folding.stepMarked, hstep]
        exact h.grow hn (hb.1 rfl) he hm

end Folding

namespace RootedGraph

variable {r : RootedGraph} {t : FunctionTable}

theorem orderly_folding (r : RootedGraph) (t : FunctionTable) :
    (r.folding t).Orderly r t (r.root + 1) := by
  refine Graph.foldl_marked (motive := Folding.Orderly r t) ?_ ?_
  · intro k s n b h hn hb
    exact h.stepMarked hn hb
  · refine ⟨rfl, ?_, ?_, ?_, ?_⟩
    · intro i i' j j' _ hi
      exact absurd (Folding.lt_size_of_lookup hi).1 (Nat.not_lt_zero i)
    · intro i c j hi
      exact absurd hi (Nat.not_lt_zero i)
    · intro i name a hi
      exact absurd hi (Nat.not_lt_zero i)
    · intro j name a hj
      exact absurd (Graph.lt_size_of_getElem? hj) (Nat.not_lt_zero j)

/-- The new root is made of everything that stays. -/
theorem exists_uses_of_lookup {i j : Nat} (huses : r.graph.Uses r.root i)
    (hi : Folding.lookup (r.folding t).known i = .node j) :
    ∃ j', Folding.lookup (r.folding t).known r.root = .node j' ∧ (r.folding t).out.Uses j' j := by
  induction huses generalizing j with
  | refl => exact ⟨j, hi, .refl⟩
  | tail hb hchild ih =>
      have hle := Nat.lt_succ_of_le (Graph.Uses.le hb)
      obtain ⟨jb, hjb, hout⟩ := (r.orderly_folding t).linked _ _ j hle hb hchild hi
      obtain ⟨j', hj', hused⟩ := ih hjb
      exact ⟨j', hj', hused.tail hout⟩

theorem fold_of_lookup {j : Nat} (h : Folding.lookup (r.folding t).known r.root = .node j) :
    (r.fold t).graph = (r.folding t).out ∧ (r.fold t).root.val = j := by
  have hplace : ∀ (g : Graph) (k : Folded) (hk : k.Below g.size), k = .node j →
      (k.place g hk).1.graph = g ∧ (k.place g hk).1.root.val = j := by
    rintro g _ hk rfl
    exact ⟨rfl, rfl⟩
  exact hplace _ _ (Folding.lookup_below (r.folding t).below r.root) h

theorem FirstUnknown.fold {e : UnknownFunction} (h : r.FirstUnknown t e) :
    (r.fold t).FirstUnknown t e := by
  obtain ⟨i, a, huses, hn, hnone, hfirst⟩ := h
  have hord := r.orderly_folding t
  obtain ⟨j, a', hj, hcall⟩ := hord.stays i e.name a (Nat.lt_succ_of_le huses.le) huses hn hnone
  obtain ⟨j', hj', hused⟩ := exists_uses_of_lookup huses hj
  obtain ⟨hgraph, hroot⟩ := fold_of_lookup hj'
  unfold FirstUnknown
  rw [hroot, hgraph]
  refine ⟨j, a', hused, hcall, hnone, ?_⟩
  intro l hl hlused
  by_contra hunknown
  have hlsize : l < (r.folding t).out.size := hl.trans (Graph.lt_size_of_getElem? hcall)
  -- A call without an entry below `l` would come from one before `i`.
  obtain ⟨l', name, b, hll, hlcall, hlnone⟩ := Graph.exists_call_of_not_known ⟨l, hlsize⟩ hunknown
  obtain ⟨i', b', hiused, hicall, hilookup⟩ := hord.origin l' name b hlcall
  have hii : i' < i := by
    rcases Nat.lt_trichotomy i' i with hlt | rfl | hgt
    · exact hlt
    · rw [hj] at hilookup
      cases hilookup
      exact absurd (hll.le.trans_lt hl) (lt_irrefl _)
    · have hjl := hord.increasing i i' j l' hgt hj hilookup
      exact absurd (hjl.trans_le hll.le) hl.not_gt
  exact Graph.not_known_of_call hicall hlnone (hfirst i' hii hiused)

theorem FirstUnknown.unique {e e' : UnknownFunction} (h : r.FirstUnknown t e)
    (h' : r.FirstUnknown t e') : e = e' := by
  obtain ⟨i, a, huses, hn, hnone, hfirst⟩ := h
  obtain ⟨i', a', huses', hn', hnone', hfirst'⟩ := h'
  rcases Nat.lt_trichotomy i i' with hlt | rfl | hgt
  · exact absurd (hfirst' i hlt huses) (Graph.not_known_of_call hn hnone)
  · rw [hn] at hn'
    cases e
    cases e'
    cases hn'
    rfl
  · exact absurd (hfirst i' hgt huses') (Graph.not_known_of_call hn' hnone')

theorem evaluate_eq_error_iff {x y : Double} {e : UnknownFunction} :
    r.evaluate t x y = .error e ↔ r.FirstUnknown t e := by
  refine ⟨(r.evaluate_spec t x y).2 e, fun h ↦ ?_⟩
  cases hrun : r.evaluate t x y with
  | ok v =>
      have hvalue := evaluate_eq_ok_iff.1 hrun
      exact absurd ((Tree.exists_value_iff t x y _).1 ⟨v, hvalue⟩) h.not_known
  | error e' => rw [h.unique ((r.evaluate_spec t x y).2 e' hrun)]

/-- A formula has a value exactly if every call that it is made of has an entry. -/
theorem exists_evaluate_iff {x y : Double} :
    (∃ v, r.evaluate t x y = .ok v) ↔
      ∀ i name a, r.graph.Uses r.root i → r.graph.nodes[i]? = some (.call name a) →
        t.contains name = true := by
  simp only [evaluate_eq_ok_iff, Tree.exists_value_iff]
  constructor
  · intro hknown i name a huses hn
    by_contra hname
    have hnone : t.get? name = none := by simpa [FunctionTable.contains] using hname
    exact Graph.not_known_of_call hn hnone (huses.known hknown)
  · intro hall
    by_contra hunknown
    obtain ⟨i, name, a, huses, hn, hnone⟩ := Graph.exists_call_of_not_known r.root hunknown
    have hname := hall i name a huses hn
    rw [FunctionTable.contains, hnone] at hname
    cases hname

/-- Folding always comes to an end with a formula, which evaluates as the one before: to the same
value if every call has an entry, and otherwise with the same function reported. -/
theorem fold_keeps_evaluation (r : RootedGraph) (t : FunctionTable) :
    r.foldChecked t = some (r.fold t) ∧ ∀ x y,
      (r.fold t).evaluate t x y = r.evaluate t x y ∧
      ((∃ v, r.evaluate t x y = .ok v) ↔
        ∀ i name a, r.graph.Uses r.root i → r.graph.nodes[i]? = some (.call name a) →
          t.contains name = true) := by
  refine ⟨r.foldChecked_eq t, fun x y ↦ ⟨?_, exists_evaluate_iff⟩⟩
  cases hrun : r.evaluate t x y with
  | ok v =>
      rw [evaluate_eq_ok_iff] at hrun ⊢
      rw [r.sameValue_fold t x y, hrun]
  | error e =>
      rw [evaluate_eq_error_iff] at hrun ⊢
      exact hrun.fold

end RootedGraph

end Formula
