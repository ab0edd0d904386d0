import Formula.Proofs.Graph.Fold

/-!
# Folding with every access checked

The marks and the folding are written here once more, as a pass that gives up where something is
not in its place: a mark or a node out of range, an operand that has not been folded before it is
used, a node that is added before its operands. None of these checks fails, and the outcome is that
of `RootedGraph.fold` (`RootedGraph.foldChecked_eq`).
-/

namespace Formula

/-- Overwrites an entry that is there. -/
def writeChecked {α : Type} (as : Array α) (i : Nat) (a : α) : Option (Array α) :=
  if i < as.size then some (as.setIfInBounds i a) else none

theorem writeChecked_of_lt {α : Type} {as : Array α} {i : Nat} (h : i < as.size) (a : α) :
    writeChecked as i a = some (as.setIfInBounds i a) :=
  if_pos h

namespace Graph

variable {g : Graph} {live : Array Bool}

def markChecked (live : Array Bool) (n : Node Nat) : Option (Array Bool) :=
  n.children.foldlM (fun live c ↦ writeChecked live c true) live

def sweepChecked (g : Graph) : Nat → Array Bool → Option (Array Bool)
  | 0, live => some live
  | i + 1, live => do
    if ← live[i]? then
      let n ← g.nodes[i]?
      let live ← markChecked live n
      g.sweepChecked i live
    else
      g.sweepChecked i live

def reachableChecked (g : Graph) (root : Nat) : Option (Array Bool) := do
  let live ← writeChecked (Array.replicate (root + 1) false) root true
  g.sweepChecked (root + 1) live

theorem markChecked_eq {n : Node Nat} (h : n.Below live.size) :
    markChecked live n = some (mark live n) := by
  unfold Node.Below at h
  unfold markChecked mark
  generalize n.children = cs at h ⊢
  induction cs generalizing live with
  | nil => rfl
  | cons c cs ih =>
      rw [List.foldlM_cons, writeChecked_of_lt (h c List.mem_cons_self)]
      apply ih
      intro c' hc'
      rw [Array.size_setIfInBounds]
      exact h c' (List.mem_cons_of_mem c hc')

theorem sweepChecked_eq {k : Nat} (hlive : k ≤ live.size) (hg : k ≤ g.size) :
    g.sweepChecked k live = some (g.sweep k live) := by
  induction k generalizing live with
  | zero => rfl
  | succ i ih =>
      have hi : i < live.size := hlive
      have hnode : i < g.nodes.size := hg
      rw [sweepChecked, sweep, Array.getD_eq_getD_getElem?, Array.getElem?_eq_getElem hi,
        Array.getElem?_eq_getElem hnode]
      cases hmark : live[i] with
      | false => exact ih hi.le hnode.le
      | true =>
          have hbelow := (g.below i hnode).mono hi.le
          change (markChecked live g.nodes[i]).bind (g.sweepChecked i) = _
          rw [markChecked_eq hbelow]
          exact ih (by rw [size_mark]; exact hi.le) hnode.le

theorem reachableChecked_eq (g : Graph) (root : Fin g.size) :
    g.reachableChecked root = some (g.reachable root) := by
  rw [reachableChecked, writeChecked_of_lt (by simp)]
  exact sweepChecked_eq (by simp) root.2

theorem getElem?_reachable {root : Fin g.size} {i : Nat} {b : Bool} (hi : i ≤ root)
    (hb : b = true ↔ g.Uses root i) : (g.reachable root)[i]? = some b := by
  have hlt : i < (g.reachable root).size := by
    rw [size_reachable]
    omega
  rw [← live_reachable_iff, Live, Array.getD_eq_getD_getElem?,
    Array.getElem?_eq_getElem hlt] at hb
  rw [Array.getElem?_eq_getElem hlt, Bool.eq_iff_iff.2 hb]
  rfl

/-- Adds a node whose operands are not known to stand earlier; also gives its index. -/
def pushChecked (g : Graph) (n : Node Nat) : Option (Graph × Nat) :=
  (g.push n).toOption.map fun h ↦ (h, g.size)

/-- A larger graph and an index in it, without the proofs. -/
def Extension.bare (e : Extension g) : Graph × Nat := (e.1.graph, e.1.root)

theorem pushChecked_eq {h : Graph} (hgh : g.size ≤ h.size) {n : Node Nat} (hn : n.Below h.size) :
    h.pushChecked n = some (Extension.ofNode h hgh n hn).bare := by
  rw [pushChecked, push, dif_pos hn]
  rfl

end Graph

namespace Folding

/-- What an old node has become, if it has been folded. -/
def lookupChecked (known : Array (Option Folded)) (i : Nat) : Option Folded := known[i]?.join

def placeChecked (g : Graph) : Folded → Option (Graph × Nat)
  | .const v => g.pushChecked (.const v)
  | .node i => some (g, i)

def keepCallChecked (out : Graph) (name : String) (k : Folded) : Option (Graph × Nat) := do
  let (g, i) ← placeChecked out k
  g.pushChecked (.call name i)

def keepBinChecked (out : Graph) (op : BinOp) (k l : Folded) : Option (Graph × Nat) := do
  let (g, i) ← placeChecked out k
  let (h, j) ← placeChecked g l
  h.pushChecked (.bin op i j)

/-- The new graph after the next node, and what that node has become. -/
def stepChecked (t : FunctionTable) (out : Graph) (known : Array (Option Folded)) :
    Node Nat → Option (Graph × Folded)
  | .const v => some (out, .const v)
  | .var v => (out.pushChecked (.var v)).map (·.map id .node)
  | .bin op l r => do
    match ← lookupChecked known l, ← lookupChecked known r with
    | .const a, .const b => some (out, .const (op.apply a b))
    | k, k' => (keepBinChecked out op k k').map (·.map id .node)
  | .call name a => do
    match ← lookupChecked known a, t.get? name with
    | .const v, some f => some (out, .const (f.apply v))
    | k, _ => (keepCallChecked out name k).map (·.map id .node)

def visitChecked (t : FunctionTable) (g : Graph) (live : Array Bool)
    (s : Graph × Array (Option Folded)) (i : Nat) : Option (Graph × Array (Option Folded)) := do
  let n ← g.nodes[i]?
  if ← live[i]? then
    let (out, k) ← stepChecked t s.1 s.2 n
    let known ← writeChecked s.2 i (some k)
    return (out, known)
  else
    return s

end Folding

/-- Folding with every access checked. -/
def RootedGraph.foldChecked (r : RootedGraph) (t : FunctionTable) : Option RootedGraph := do
  let live ← r.graph.reachableChecked r.root
  let (out, known) ← (List.range live.size).foldlM (Folding.visitChecked t r.graph live)
    (.empty, Array.replicate live.size none)
  let (g, root) ← Folding.placeChecked out (← Folding.lookupChecked known r.root)
  (g.rootedAt root).toOption

namespace Folding

variable {t : FunctionTable} {out : Graph} {k l : Folded}

theorem placeChecked_eq (hk : k.Below out.size) :
    placeChecked out k = some (k.place out hk).bare := by
  cases k with
  | const v => exact Graph.pushChecked_eq le_rfl (Node.below_const v _)
  | node i => rfl

theorem keepCallChecked_eq (name : String) (hk : k.Below out.size) :
    keepCallChecked out name k = some (keepCall name k hk).bare := by
  rw [keepCallChecked, placeChecked_eq hk]
  exact Graph.pushChecked_eq (k.place out hk).2 _

theorem keepBinChecked_eq (op : BinOp) (hk : k.Below out.size) (hl : l.Below out.size) :
    keepBinChecked out op k l = some (keepBin op k l hk hl).bare := by
  have hleft := (k.place out hk).2
  have hright := (l.place (k.place out hk).1.graph (hl.mono hleft)).2
  rw [keepBinChecked, placeChecked_eq hk]
  change (placeChecked (k.place out hk).1.graph l).bind _ = _
  rw [placeChecked_eq (hl.mono hleft)]
  exact Graph.pushChecked_eq (hleft.trans hright) _

/-- A checked step gives the graph after the step and the entry that the step adds. -/
def Matches (s s' : Folding) (o : Option (Graph × Folded)) : Prop :=
  ∃ k, o = some (s'.out, k) ∧ s'.known = s.known.push k

theorem matches_stepChecked (t : FunctionTable) (s : Folding) {known : Array (Option Folded)}
    {n : Node Nat} (h : ∀ c ∈ n.children, lookupChecked known c = some (lookup s.known c)) :
    Matches s (s.step t n) (stepChecked t s.out known n) := by
  cases n with
  | const v => exact ⟨_, rfl, rfl⟩
  | var v =>
      rw [stepChecked, Graph.pushChecked_eq le_rfl (Node.below_var v _)]
      exact ⟨_, rfl, rfl⟩
  | bin op l r =>
      have hl := h l (by simp [Node.children])
      have hr := h r (by simp [Node.children])
      simp only [stepChecked, hl, hr, bind, Option.bind_some]
      rcases step_bin t s op l r with ⟨a, b, ha, hb, hstep⟩ | ⟨hkeep, hstep⟩
      · rw [hstep, ha, hb]
        exact ⟨_, rfl, rfl⟩
      · rw [hstep]
        have heq := keepBinChecked_eq op (lookup_below s.below l) (lookup_below s.below r)
        split
        · next a b ha hb => exact absurd ⟨ha, hb⟩ (hkeep a b)
        · rw [heq]
          exact ⟨_, rfl, rfl⟩
  | call name a =>
      have ha := h a (by simp [Node.children])
      simp only [stepChecked, ha, bind, Option.bind_some]
      rcases step_call t s name a with ⟨v, f, hv, hf, hstep⟩ | ⟨hkeep, hstep⟩
      · rw [hstep, hv, hf]
        exact ⟨_, rfl, rfl⟩
      · rw [hstep]
        have heq := keepCallChecked_eq name (lookup_below s.below a)
        split
        · next v f hv hf => exact absurd ⟨hv, hf⟩ (hkeep v f)
        · rw [heq]
          exact ⟨_, rfl, rfl⟩

/-- The checked pass has built the same graph, and it knows what the nodes before `k` that the root
is made of have become. -/
structure Agrees (r : RootedGraph) (k : Nat) (s : Folding) (c : Graph × Array (Option Folded)) :
    Prop where
  out : c.1 = s.out
  size : s.known.size = k
  room : c.2.size = r.root + 1
  seen : ∀ i < k, r.graph.Uses r.root i → lookupChecked c.2 i = some (lookup s.known i)

variable {r : RootedGraph} {k : Nat} {s : Folding} {c : Graph × Array (Option Folded)}

theorem Agrees.step (h : Agrees r k s c) {n : Node Nat} (hn : r.graph.nodes[k]? = some n)
    (huses : r.graph.Uses r.root k) :
    ∃ f, stepChecked t c.1 c.2 n = some ((s.step t n).out, f) ∧
      Agrees r (k + 1) (s.step t n) ((s.step t n).out, c.2.setIfInBounds k (some f)) := by
  obtain ⟨f, hf, hknown⟩ := matches_stepChecked t s fun c' hc' ↦
    have hchild : r.graph.Child k c' := ⟨n, hn, hc'⟩
    h.seen c' hchild.lt (huses.tail hchild)
  refine ⟨f, h.out ▸ hf, rfl, ?_, ?_, fun i hi hused ↦ ?_⟩
  · rw [hknown, Array.size_push, h.size]
  · rw [Array.size_setIfInBounds, h.room]
  · rw [hknown, lookup_push, h.size, lookupChecked, Array.getElem?_setIfInBounds]
    by_cases hik : i = k
    · have hroom : k < c.2.size := h.room ▸ Nat.lt_succ_of_le huses.le
      rw [if_pos hik.symm, if_pos hroom, if_pos hik]
      rfl
    · rw [if_neg (Ne.symm hik), if_neg hik]
      exact h.seen i (by omega) hused

theorem Agrees.skip (h : Agrees r k s c) (hunused : ¬ r.graph.Uses r.root k) (v : Double) :
    Agrees r (k + 1) (s.constant v) c where
  out := h.out
  size := by rw [Folding.constant, Array.size_push, h.size]
  room := h.room
  seen i hi hused := by
    have hik : i ≠ k := fun hik ↦ hunused (hik ▸ hused)
    rw [Folding.constant, lookup_push, h.size, if_neg hik]
    exact h.seen i (by omega) hused

theorem Agrees.visit (h : Agrees r k s c) {n : Node Nat} {b : Bool}
    (hn : r.graph.nodes[k]? = some n) (hb : b = true ↔ r.graph.Uses r.root k)
    (hk : k ≤ r.root) :
    ∃ c', visitChecked t r.graph (r.graph.reachable r.root) c k = some c' ∧
      Agrees r (k + 1) (s.stepMarked t (n, b)) c' := by
  rw [visitChecked, hn, Graph.getElem?_reachable hk hb]
  cases b with
  | false => exact ⟨c, rfl, h.skip (fun huses ↦ Bool.false_ne_true (hb.2 huses)) 0⟩
  | true =>
      obtain ⟨f, hf, hnext⟩ := h.step hn (hb.1 rfl)
      have hroom : k < c.2.size := h.room ▸ Nat.lt_succ_of_le hk
      refine ⟨_, ?_, hnext⟩
      change (stepChecked t c.1 c.2 n).bind _ = _
      rw [hf]
      change (writeChecked c.2 k (some f)).bind _ = _
      rw [writeChecked_of_lt hroom]
      rfl

end Folding

namespace RootedGraph

/-- The state at the end of the pass through the nodes. -/
def folding (r : RootedGraph) (t : FunctionTable) : Folding :=
  (r.graph.marked r.root).foldl (Folding.stepMarked t) .start

theorem exists_foldlM_visitChecked (r : RootedGraph) (t : FunctionTable) :
    ∃ c, (List.range (r.graph.reachable r.root).size).foldlM
        (Folding.visitChecked t r.graph (r.graph.reachable r.root))
        (.empty, Array.replicate (r.graph.reachable r.root).size none) = some c ∧
      Folding.Agrees r (r.root + 1) (r.folding t) c := by
  rw [r.graph.size_reachable r.root]
  -- The bound keeps the pass where there are marks to read.
  refine Graph.foldl_marked (motive := fun k s ↦ k ≤ r.root + 1 → ∃ c, (List.range k).foldlM
    (Folding.visitChecked t r.graph (r.graph.reachable r.root))
    (.empty, Array.replicate (r.root + 1) none) = some c ∧ Folding.Agrees r k s c) ?_ ?_ le_rfl
  · intro k s n b hs hn hb hk
    obtain ⟨c, hc, hagree⟩ := hs (by omega)
    obtain ⟨c', hc', hnext⟩ := hagree.visit (t := t) hn hb (by omega)
    refine ⟨c', ?_, hnext⟩
    simpa [List.range_succ, List.foldlM_append, hc] using hc'
  · intro _
    exact ⟨_, rfl, rfl, rfl, Array.size_replicate, fun i hi ↦ absurd hi (Nat.not_lt_zero i)⟩

/-- No check fails: every node is folded before it is used, and stands before those that use it. -/
theorem foldChecked_eq (r : RootedGraph) (t : FunctionTable) :
    r.foldChecked t = some (r.fold t) := by
  obtain ⟨⟨out, known⟩, hc, hagree⟩ := r.exists_foldlM_visitChecked t
  have hroot := hagree.seen r.root (Nat.lt_succ_self _) .refl
  have hout : out = (r.folding t).out := hagree.out
  have hplace := Folding.placeChecked_eq (Folding.lookup_below (r.folding t).below r.root)
  simp only [foldChecked, r.graph.reachableChecked_eq, bind, Option.bind_some, hc, hroot, hout,
    hplace]
  exact congrArg Except.toOption (dif_pos (r.fold t).root.2)

end RootedGraph

end Formula
