import Formula.Proofs.Graph.FoldOrder

/-!
# The shape of a folded graph

A step of folding adds nothing, or one node, or one node and right in front of it the one constant
that it uses. `Graph.Built` are the graphs that come about in this way; none of their nodes could be
folded (`Graph.Built.settled`). Every node that is added stands for a node that the root is made of,
or is a constant that such a node uses (`Folding.Origin`). So a folded graph has nothing in it that
its root is not made of, and the root comes last.
-/

namespace Formula

/-- The node stays although its operand `c` is a constant. -/
def Node.StuckOn (t : FunctionTable) (c : Nat) : Node Nat → Prop
  | .const _ | .var _ => True
  | .bin _ a b => a ≠ c ∨ b ≠ c
  | .call name _ => t.contains name = false

namespace Graph

variable {g : Graph} {t : FunctionTable} {i : Nat} {n : Node Nat}

/-- The node at `i` is a constant. -/
def IsConst (g : Graph) (i : Nat) : Prop := ∃ v, g.nodes[i]? = some (.const v)

theorem isConst_add_of_lt (hn : n.Below g.size) (hi : i < g.size) :
    (g.add n hn).IsConst i ↔ g.IsConst i := by
  simp [IsConst, getElem?_add, hi.ne]

theorem isConst_add_self (hn : n.Below g.size) :
    (g.add n hn).IsConst g.size ↔ ∃ v, n = .const v := by
  simp [IsConst, getElem?_add]

theorem below_of_getElem? (h : g.nodes[i]? = some n) : n.Below g.size := by
  obtain ⟨hi, rfl⟩ := Array.getElem?_eq_some_iff.1 h
  exact (g.below i hi).mono (Nat.le_of_lt hi)

def addConst (g : Graph) (v : Double) : Graph := (Extension.const g v).1.graph

@[simp] theorem size_addConst (g : Graph) (v : Double) : (g.addConst v).size = g.size + 1 :=
  size_add g _ (Node.below_const v _)

theorem getElem?_addConst (g : Graph) (v : Double) (i : Nat) :
    (g.addConst v).nodes[i]? = if i = g.size then some (.const v) else g.nodes[i]? :=
  getElem?_add g _ (Node.below_const v _) i

theorem lt_of_below_addConst {v : Double} {c : Nat} (hn : n.Below (g.addConst v).size)
    (hc : c ∈ n.children) (hne : c ≠ g.size) : c < g.size := by
  have hle := hn c hc
  rw [size_addConst] at hle
  exact (Nat.lt_succ_iff.1 hle).lt_of_ne hne

/-- The graphs that folding builds: a node without constants among its operands comes alone, and a
node that uses a constant comes together with it. -/
inductive Built (t : FunctionTable) : Graph → Prop
  | empty : Built t .empty
  | alone {g : Graph} {n : Node Nat} (hg : Built t g) (hn : n.Below g.size)
      (hkind : ∀ v, n ≠ .const v) (hopen : ∀ c ∈ n.children, ¬ g.IsConst c) : Built t (g.add n hn)
  | paired {g : Graph} {n : Node Nat} (hg : Built t g) (v : Double)
      (hn : n.Below (g.addConst v).size) (huse : g.size ∈ n.children)
      (hopen : ∀ c ∈ n.children, c ≠ g.size → ¬ g.IsConst c) (hstuck : n.StuckOn t g.size) :
      Built t ((g.addConst v).add n hn)

/-- The node at `i` cannot be folded, and a constant that it uses comes right before it. -/
structure Settled (g : Graph) (t : FunctionTable) (i : Nat) (n : Node Nat) : Prop where
  near : ∀ c ∈ n.children, g.IsConst c → c + 1 = i
  bin : ∀ op a b, n = .bin op a b → ¬ (g.IsConst a ∧ g.IsConst b)
  call : ∀ name a, n = .call name a → t.contains name = true → ¬ g.IsConst a

namespace Settled

theorem of_open (h : ∀ c ∈ n.children, ¬ g.IsConst c) : g.Settled t i n where
  near c hc hconst := absurd hconst (h c hc)
  bin op a b hn hconst := h a (by simp [hn, Node.children]) hconst.1
  call name a hn _ := h a (by simp [hn, Node.children])

/-- Whether a node is settled is decided by its operands, which a new node does not change. -/
theorem add (h : g.Settled t i n) (hn : n.Below g.size) {m : Node Nat} (hm : m.Below g.size) :
    (g.add m hm).Settled t i n := by
  have hold : ∀ c ∈ n.children, (g.add m hm).IsConst c → g.IsConst c :=
    fun c hc ↦ (isConst_add_of_lt hm (hn c hc)).1
  refine ⟨fun c hc hconst ↦ h.near c hc (hold c hc hconst), ?_, ?_⟩
  · rintro op a b rfl ⟨ha, hb⟩
    exact h.bin op a b rfl
      ⟨hold a (by simp [Node.children]) ha, hold b (by simp [Node.children]) hb⟩
  · rintro name a rfl hname ha
    exact h.call name a rfl hname (hold a (by simp [Node.children]) ha)

theorem paired {v : Double} (hn : n.Below (g.addConst v).size)
    (hopen : ∀ c ∈ n.children, c ≠ g.size → ¬ g.IsConst c) (hstuck : n.StuckOn t g.size) :
    (g.addConst v).Settled t (g.addConst v).size n := by
  have heq : ∀ c ∈ n.children, (g.addConst v).IsConst c → c = g.size := by
    intro c hc hconst
    by_contra hne
    have hlt := lt_of_below_addConst hn hc hne
    exact hopen c hc hne ((isConst_add_of_lt (Node.below_const v _) hlt).1 hconst)
  refine ⟨fun c hc hconst ↦ ?_, ?_, ?_⟩
  · rw [heq c hc hconst, size_addConst]
  · rintro op a b rfl ⟨ha, hb⟩
    have hsame := heq a (by simp [Node.children]) ha
    have hsame' := heq b (by simp [Node.children]) hb
    rcases hstuck with h | h
    · exact h hsame
    · exact h hsame'
  · rintro name a rfl hname -
    rw [Node.StuckOn, hname] at hstuck
    cases hstuck

end Settled

theorem Built.settled (hg : g.Built t) (h : g.nodes[i]? = some n) : g.Settled t i n := by
  induction hg generalizing i n with
  | empty => exact absurd (lt_size_of_getElem? h) (Nat.not_lt_zero i)
  | @alone g m hg hm hkind hopen ih =>
      rw [getElem?_add] at h
      split at h
      · cases h
        exact (Settled.of_open hopen).add hm hm
      · exact (ih h).add (below_of_getElem? h) hm
  | @paired g m hg v hm huse hopen hstuck ih =>
      rw [getElem?_add] at h
      split at h
      · next hi =>
          cases h
          rw [hi]
          exact (Settled.paired hm hopen hstuck).add hm hm
      · rw [getElem?_addConst] at h
        split at h
        · cases h
          apply Settled.of_open
          intro c hc
          simp [Node.children] at hc
        · have hsettled := (ih h).add (below_of_getElem? h) (Node.below_const v _)
          refine hsettled.add ((below_of_getElem? h).mono ?_) hm
          rw [size_add]
          exact Nat.le_succ _

end Graph

namespace Folding

variable {t : FunctionTable} {s s' : Folding} {n : Node Nat}

/-- What a step does: the node becomes a constant, or it stays with operands that stay, or it stays
with one operand that has become a constant and gets a node now. -/
inductive Outcome (t : FunctionTable) (s : Folding) (n : Node Nat) : Folding → Prop
  | constant (v : Double) : Outcome t s n (s.constant v)
  | alone {m : Node Nat} (hm : m.Below s.out.size) (hkind : ∀ v, m ≠ .const v)
      (hfrom : ∀ j ∈ m.children, ∃ i, lookup s.known i = .node j) :
      Outcome t s n (grow s.known s.below (.ofNode s.out le_rfl m hm))
  | paired {m : Node Nat} {c : Nat} {v : Double} (hm : m.Below (s.out.addConst v).size)
      (hc : c ∈ n.children) (hv : lookup s.known c = .const v) (huse : s.out.size ∈ m.children)
      (hfrom : ∀ j ∈ m.children, j ≠ s.out.size → ∃ i, lookup s.known i = .node j)
      (hstuck : m.StuckOn t s.out.size) :
      Outcome t s n (grow s.known s.below
        (.ofNode (s.out.addConst v) (by simp) m hm))

theorem outcome_keepCall (name : String) {k : Folded} (hk : k.Below s.out.size) {a : Nat}
    (ha : a ∈ n.children) (hka : lookup s.known a = k)
    (hkeep : ∀ v f, ¬ (k = .const v ∧ t.get? name = some f)) :
    Outcome t s n (grow s.known s.below (keepCall name k hk)) := by
  cases k with
  | const v =>
      have hname : t.contains name = false := by
        rw [FunctionTable.contains, Option.isSome_eq_false_iff, Option.isNone_iff_eq_none,
          Option.eq_none_iff_forall_not_mem]
        exact fun f hf ↦ hkeep v f ⟨rfl, hf⟩
      have hsize : s.out.size < (s.out.addConst v).size := by simp
      refine .paired (m := .call name s.out.size) (Node.below_call name hsize) ha hka
        (by simp [Node.children]) ?_ hname
      simp [Node.children]
  | node j =>
      refine .alone (m := .call name j) (Node.below_call name hk) (by simp) ?_
      simp only [Node.children, List.mem_singleton]
      rintro _ rfl
      exact ⟨a, hka⟩

theorem outcome_keepBin (op : BinOp) {k l : Folded} (hk : k.Below s.out.size)
    (hl : l.Below s.out.size) {a b : Nat} (ha : a ∈ n.children) (hb : b ∈ n.children)
    (hka : lookup s.known a = k) (hlb : lookup s.known b = l)
    (hkeep : ∀ v w, ¬ (k = .const v ∧ l = .const w)) :
    Outcome t s n (grow s.known s.below (keepBin op k l hk hl)) := by
  have hsize : ∀ v, s.out.size < (s.out.addConst v).size := by simp
  cases k with
  | const v =>
      cases l with
      | const w => exact absurd ⟨rfl, rfl⟩ (hkeep v w)
      | node j =>
          refine .paired (m := .bin op s.out.size j)
            (Node.below_bin op (hsize v) (Nat.lt_trans hl (hsize v))) ha hka
            (by simp [Node.children]) ?_ (.inr (Nat.ne_of_lt hl))
          simp only [Node.children, List.mem_cons, List.not_mem_nil, or_false]
          rintro _ (rfl | rfl) hne
          · exact absurd rfl hne
          · exact ⟨b, hlb⟩
  | node i =>
      cases l with
      | const w =>
          refine .paired (m := .bin op i s.out.size)
            (Node.below_bin op (Nat.lt_trans hk (hsize w)) (hsize w)) hb hlb
            (by simp [Node.children]) ?_ (.inl (Nat.ne_of_lt hk))
          simp only [Node.children, List.mem_cons, List.not_mem_nil, or_false]
          rintro _ (rfl | rfl) hne
          · exact ⟨a, hka⟩
          · exact absurd rfl hne
      | node j =>
          refine .alone (m := .bin op i j) (Node.below_bin op hk hl) (by simp) ?_
          simp only [Node.children, List.mem_cons, List.not_mem_nil, or_false]
          rintro _ (rfl | rfl)
          · exact ⟨a, hka⟩
          · exact ⟨b, hlb⟩

theorem outcome_step (t : FunctionTable) (s : Folding) (n : Node Nat) :
    Outcome t s n (s.step t n) := by
  cases n with
  | const v => exact .constant v
  | var v =>
      refine .alone (m := .var v) (Node.below_var v _) (by simp) ?_
      simp [Node.children]
  | bin op a b =>
      rcases step_bin t s op a b with ⟨v, w, -, -, hstep⟩ | ⟨hkeep, hstep⟩
      · rw [hstep]
        exact .constant _
      · rw [hstep]
        exact outcome_keepBin op _ _ (by simp [Node.children]) (by simp [Node.children]) rfl rfl
          hkeep
  | call name a =>
      rcases step_call t s name a with ⟨v, f, -, -, hstep⟩ | ⟨hkeep, hstep⟩
      · rw [hstep]
        exact .constant _
      · rw [hstep]
        exact outcome_keepCall name _ (by simp [Node.children]) rfl hkeep

/-- Where the node at `j` of the new graph comes from: it is what has become of the node at `i`, or
it is the constant that this node has become, in front of the only node that uses it. -/
inductive Origin (r : RootedGraph) (s : Folding) (i j : Nat) : Prop
  | node (hi : lookup s.known i = .node j)
  | const {p : Nat} {v : Double} (huses : r.graph.Uses r.root p) (hchild : r.graph.Child p i)
      (hp : lookup s.known p = .node (j + 1)) (hi : lookup s.known i = .const v)
      (hout : s.out.Child (j + 1) j)

variable {r : RootedGraph} {k : Nat}

theorem Origin.mono {i j : Nat} (h : s.Origin r i j)
    (hknown : ∀ i < s.known.size, lookup s'.known i = lookup s.known i)
    (hout : ∀ (j : Nat) n, s.out.nodes[j]? = some n → s'.out.nodes[j]? = some n) :
    s'.Origin r i j := by
  cases h with
  | node hi => exact .node ((hknown i (lt_size_of_lookup hi).1).trans hi)
  | const huses hchild hp hi hchild' =>
      have hlt := (lt_size_of_lookup hp).1
      obtain ⟨n, hn, hmem⟩ := hchild'
      exact .const huses hchild ((hknown _ hlt).trans hp)
        ((hknown _ (hchild.lt.trans hlt)).trans hi) ⟨n, hout _ n hn, hmem⟩

/-- After the nodes before `k`: the new graph has the shape of a folded one, and everything in it
comes from a node that the root is made of. -/
structure Tidy (r : RootedGraph) (t : FunctionTable) (k : Nat) (s : Folding) : Prop where
  size : s.known.size = k
  built : s.out.Built t
  stays : ∀ i j, lookup s.known i = .node j → ¬ s.out.IsConst j
  last : ∀ i j, i + 1 = k → lookup s.known i = .node j → j + 1 = s.out.size
  origin : ∀ j < s.out.size, ∃ i, r.graph.Uses r.root i ∧ s.Origin r i j

theorem Tidy.start (r : RootedGraph) (t : FunctionTable) : Folding.start.Tidy r t 0 where
  size := rfl
  built := .empty
  stays i _ hi := absurd (lt_size_of_lookup hi).1 (Nat.not_lt_zero i)
  last i _ hk := absurd hk (Nat.succ_ne_zero i)
  origin j hj := absurd hj (Nat.not_lt_zero j)

theorem lookup_constant (h : s.known.size = k) (v : Double) (i : Nat) :
    lookup (s.constant v).known i = if i = k then .const v else lookup s.known i := by
  rw [Folding.constant, lookup_push, h]

theorem lookup_grow (h : s.known.size = k) (e : Graph.Extension s.out) (i : Nat) :
    lookup (grow s.known s.below e).known i =
      if i = k then .node e.1.root else lookup s.known i := by
  rw [Folding.grow, lookup_push, h]

theorem Tidy.constant (h : s.Tidy r t k) (v : Double) : (s.constant v).Tidy r t (k + 1) := by
  have hlook := lookup_constant h.size v
  have hknown : ∀ i < s.known.size, lookup (s.constant v).known i = lookup s.known i := by
    intro i hi
    rw [hlook, if_neg (h.size ▸ hi).ne]
  refine ⟨?_, h.built, ?_, ?_, ?_⟩
  · rw [Folding.constant, Array.size_push, h.size]
  · intro i j hi
    rw [hlook] at hi
    split at hi
    · cases hi
    · exact h.stays i j hi
  · intro i j hik hi
    rw [hlook, if_pos (Nat.succ.inj hik)] at hi
    cases hi
  · intro j hj
    obtain ⟨i, huses, horigin⟩ := h.origin j hj
    exact ⟨i, huses, horigin.mono hknown fun _ _ hn ↦ hn⟩

theorem Tidy.grow (h : s.Tidy r t k) (huses : r.graph.Uses r.root k) {e : Graph.Extension s.out}
    (hbuilt : e.1.graph.Built t) (hroot : ¬ e.1.graph.IsConst e.1.root)
    (hlast : e.1.root + 1 = e.1.graph.size)
    (hkept : ∀ j < s.out.size, e.1.graph.nodes[j]? = s.out.nodes[j]?)
    (hnew : ∀ j, s.out.size ≤ j → j < e.1.root →
      ∃ i, r.graph.Uses r.root i ∧ (Folding.grow s.known s.below e).Origin r i j) :
    (Folding.grow s.known s.below e).Tidy r t (k + 1) := by
  have hlook := lookup_grow h.size e
  have hknown : ∀ i < s.known.size,
      lookup (Folding.grow s.known s.below e).known i = lookup s.known i := by
    intro i hi
    rw [hlook, if_neg (h.size ▸ hi).ne]
  refine ⟨?_, hbuilt, ?_, ?_, ?_⟩
  · rw [Folding.grow, Array.size_push, h.size]
  · intro i j hi hconst
    rw [hlook] at hi
    split at hi
    · cases hi
      exact hroot hconst
    · obtain ⟨v, hv⟩ := hconst
      exact h.stays i j hi ⟨v, (hkept j (lt_size_of_lookup hi).2).symm.trans hv⟩
  · intro i j hik hi
    rw [hlook, if_pos (Nat.succ.inj hik)] at hi
    cases hi
    exact hlast
  · intro j hj
    by_cases hold : j < s.out.size
    · obtain ⟨i, hused, horigin⟩ := h.origin j hold
      refine ⟨i, hused, horigin.mono hknown ?_⟩
      intro j n hn
      exact (hkept j (Graph.lt_size_of_getElem? hn)).trans hn
    · by_cases hjroot : j < e.1.root
      · exact hnew j (not_lt.1 hold) hjroot
      · refine ⟨k, huses, .node ?_⟩
        have hlt : j < e.1.graph.size := hj
        have hj' : j = e.1.root := by omega
        rw [hlook, if_pos rfl, hj']

theorem Tidy.step (h : s.Tidy r t k) (huses : r.graph.Uses r.root k)
    (hn : r.graph.nodes[k]? = some n) : (s.step t n).Tidy r t (k + 1) := by
  have hopen : ∀ {j}, (∃ i, lookup s.known i = .node j) → ¬ s.out.IsConst j :=
    fun ⟨i, hi⟩ ↦ h.stays i _ hi
  have houtcome := outcome_step t s n
  generalize s.step t n = s' at houtcome
  cases houtcome with
  | constant v => exact h.constant v
  | @alone m hm hkind hfrom =>
      apply h.grow huses
      · exact .alone h.built hm hkind fun j hj ↦ hopen (hfrom j hj)
      · intro hconst
        obtain ⟨v, hv⟩ := (Graph.isConst_add_self hm).1 hconst
        exact hkind v hv
      · exact (s.out.size_add m hm).symm
      · intro j hj
        exact (s.out.getElem?_add m hm j).trans (if_neg hj.ne)
      · intro j hj hjroot
        exact absurd hjroot hj.not_gt
  | @paired m c v hm hc hv huse hfrom hstuck =>
      have hgraph := (s.out.addConst v).getElem?_add m hm
      have hsize := s.out.size_addConst v
      apply h.grow huses
      · exact .paired h.built v hm huse (fun j hj hne ↦ hopen (hfrom j hj hne)) hstuck
      · intro hconst
        obtain ⟨w, rfl⟩ := (Graph.isConst_add_self hm).1 hconst
        simp [Node.children] at huse
      · exact ((s.out.addConst v).size_add m hm).symm
      · intro j hj
        have hne : j ≠ (s.out.addConst v).size := by omega
        exact (hgraph j).trans ((if_neg hne).trans
          ((s.out.getElem?_addConst v j).trans (if_neg hj.ne)))
      · intro j hj hjroot
        -- Only the constant has been added in front of the node.
        have hjroot' : j < (s.out.addConst v).size := hjroot
        obtain rfl : j = s.out.size := by omega
        have hchild : r.graph.Child k c := ⟨n, hn, hc⟩
        refine ⟨c, huses.tail hchild, .const (v := v) huses hchild ?_ ?_ ⟨m, ?_, huse⟩⟩
        · rw [lookup_grow h.size, if_pos rfl]
          exact congrArg Folded.node hsize
        · rw [lookup_grow h.size, if_neg hchild.lt.ne, hv]
        · exact (hgraph _).trans (if_pos hsize.symm)

end Folding

namespace RootedGraph

variable {r : RootedGraph} {t : FunctionTable}

theorem tidy_folding (r : RootedGraph) (t : FunctionTable) :
    (r.folding t).Tidy r t (r.root + 1) := by
  apply Graph.foldl_marked (motive := Folding.Tidy r t) _ (.start r t)
  intro k s n b h hn hb
  cases b with
  | false => exact h.constant 0
  | true => exact h.step (hb.1 rfl) hn

/-- The graph of one constant. -/
def constant (v : Double) : RootedGraph := (Graph.Extension.const .empty v).1

/-- Where the root becomes a constant, nothing else has got a node. -/
theorem fold_eq_constant {v : Double}
    (h : Folding.lookup (r.folding t).known r.root = .const v) : r.fold t = .constant v := by
  have hempty : (r.folding t).out = .empty := by
    have hnodes : (r.folding t).out.nodes = #[] := by
      by_contra hne
      obtain ⟨i, huses, horigin⟩ := (r.tidy_folding t).origin 0 (Array.size_pos_iff.2 hne)
      obtain ⟨p, j, hp, hj⟩ : ∃ p j, r.graph.Uses r.root p ∧
          Folding.lookup (r.folding t).known p = .node j := by
        cases horigin with
        | node hi => exact ⟨i, 0, huses, hi⟩
        | const hp _ hj _ _ => exact ⟨_, _, hp, hj⟩
      obtain ⟨j', hj', -⟩ := exists_uses_of_lookup hp hj
      rw [h] at hj'
      cases hj'
    generalize (r.folding t).out = out at hnodes
    cases out
    cases hnodes
    rfl
  have hplace : ∀ (g : Graph) (k : Folded) (hk : k.Below g.size), g = .empty → k = .const v →
      (k.place g hk).1 = .constant v := by
    rintro _ _ hk rfl rfl
    rfl
  exact hplace _ _ (Folding.lookup_below (r.folding t).below r.root) hempty h

/-- The root is made of everything in the graph, and comes last. -/
structure Whole (r : RootedGraph) : Prop where
  last : r.root + 1 = r.graph.size
  uses : ∀ i < r.graph.size, r.graph.Uses r.root i

theorem whole_constant (v : Double) : (constant v).Whole where
  last := rfl
  uses i hi := by
    have hzero : i = 0 := Nat.lt_one_iff.1 hi
    rw [hzero]
    exact .refl

theorem whole_fold (r : RootedGraph) (t : FunctionTable) : (r.fold t).Whole := by
  cases hroot : Folding.lookup (r.folding t).known r.root with
  | const v =>
      rw [fold_eq_constant hroot]
      exact whole_constant v
  | node j₀ =>
      obtain ⟨hgraph, hindex⟩ := fold_of_lookup hroot
      have hall : ∀ p j, r.graph.Uses r.root p → Folding.lookup (r.folding t).known p = .node j →
          (r.folding t).out.Uses j₀ j := by
        intro p j hp hj
        obtain ⟨j', hj', huses⟩ := exists_uses_of_lookup hp hj
        rw [hroot] at hj'
        cases hj'
        exact huses
      constructor
      · rw [hindex, hgraph]
        exact (r.tidy_folding t).last r.root j₀ rfl hroot
      · rw [hindex, hgraph]
        intro j hj
        obtain ⟨i, huses, horigin⟩ := (r.tidy_folding t).origin j hj
        cases horigin with
        | node hi => exact hall i j huses hi
        | const hp _ hj _ hout => exact (hall _ _ hp hj).tail hout

theorem settled_fold {i : Nat} {n : Node Nat} (h : (r.fold t).graph.nodes[i]? = some n) :
    (r.fold t).graph.Settled t i n := by
  cases hroot : Folding.lookup (r.folding t).known r.root with
  | const v =>
      rw [fold_eq_constant hroot] at h ⊢
      have hi : i = 0 := Nat.lt_one_iff.1 (Graph.lt_size_of_getElem? h)
      subst hi
      obtain rfl : .const v = n := Option.some.inj h
      apply Graph.Settled.of_open
      simp [Node.children]
  | node j₀ =>
      obtain ⟨hgraph, -⟩ := fold_of_lookup hroot
      rw [hgraph] at h ⊢
      exact (r.tidy_folding t).built.settled h

end RootedGraph

end Formula
