import Formula.Graph.Fold
import Formula.Proofs.Graph.Growth
import Formula.Proofs.Graph.Reachable
import Formula.Proofs.Tree.Fold

/-!
# Folding nodes folds the tree

Folding goes through the nodes in order. What a node has become, a constant or a node of the new
graph, is the folded formula of the node, and later nodes of the new graph change nothing about it.
So the new root unfolds to the folded tree (`RootedGraph.tree_fold`), and what holds of folded trees
holds of folded graphs.
-/

namespace Formula

namespace Folded

def tree (g : Graph) : Folded → Tree
  | const v => .const v
  | node i => g.unfold i

/-- It stands for the formula; a constant has no node of its own yet. -/
def Becomes (g : Graph) (e : Tree) : Folded → Prop
  | const v => e = .const v
  | node i => g.unfold i = e ∧ ∀ v, e ≠ .const v

theorem shows_place (g : Graph) (k : Folded) (hk : k.Below g.size) :
    (k.place g hk).Shows (k.tree g) := by
  cases k with
  | const v => exact Graph.Extension.shows_const g v
  | node i => exact Graph.Extension.shows_here g i hk

theorem Becomes.tree_eq {g : Graph} {e : Tree} {k : Folded} (h : k.Becomes g e) : k.tree g = e := by
  cases k with
  | const v => exact h.symm
  | node i => exact h.1

theorem Becomes.eq_const_iff {g : Graph} {e : Tree} {k : Folded} (h : k.Becomes g e) {v : Double} :
    e = .const v ↔ k = .const v := by
  cases k with
  | const w =>
      obtain rfl : e = .const w := h
      simp
  | node i => simp [h.2 v]

theorem tree_of_grows {g h : Graph} (hgh : g.Grows h) {k : Folded} (hk : k.Below g.size) :
    k.tree h = k.tree g := by
  cases k with
  | const v => rfl
  | node i => exact hgh.unfold_eq i hk

theorem Becomes.of_grows {g h : Graph} {e : Tree} {k : Folded} (hbecomes : k.Becomes g e)
    (hgh : g.Grows h) (hk : k.Below g.size) : k.Becomes h e := by
  cases k with
  | const v => exact hbecomes
  | node i => exact ⟨(hgh.unfold_eq i hk).trans hbecomes.1, hbecomes.2⟩

end Folded

namespace Folding

/-- An operation is folded if both operands have become constants, and kept otherwise. -/
theorem step_bin (t : FunctionTable) (s : Folding) (op : BinOp) (l r : Nat) :
    (∃ a b, lookup s.known l = .const a ∧ lookup s.known r = .const b ∧
      s.step t (.bin op l r) = s.constant (op.apply a b)) ∨
    (∀ a b, ¬ (lookup s.known l = .const a ∧ lookup s.known r = .const b)) ∧
      s.step t (.bin op l r) = grow s.known s.below (keepBin op (lookup s.known l)
        (lookup s.known r) (lookup_below s.below l) (lookup_below s.below r)) := by
  simp only [step]
  split
  · next a b _ _ hl hr _ _ => exact .inl ⟨a, b, hl, hr, rfl⟩
  · next hkeep =>
      refine .inr ⟨fun a b h ↦ ?_, rfl⟩
      exact hkeep a b trivial trivial h.1 h.2 (proof_irrel_heq _ _) (proof_irrel_heq _ _)

/-- A call is folded if the argument has become a constant and the function has an entry. -/
theorem step_call (t : FunctionTable) (s : Folding) (name : String) (a : Nat) :
    (∃ v f, lookup s.known a = .const v ∧ t.get? name = some f ∧
      s.step t (.call name a) = s.constant (f.apply v)) ∨
    (∀ v f, ¬ (lookup s.known a = .const v ∧ t.get? name = some f)) ∧
      s.step t (.call name a) = grow s.known s.below
        (keepCall name (lookup s.known a) (lookup_below s.below a)) := by
  simp only [step]
  split
  · next v f _ ha hf _ => exact .inl ⟨v, f, ha, hf, rfl⟩
  · next hkeep =>
      refine .inr ⟨fun v f h ↦ ?_, rfl⟩
      exact hkeep v f trivial h.1 h.2 (proof_irrel_heq _ _)

variable {r : RootedGraph} {t : FunctionTable} {k : Nat} {s : Folding}

/-- The nodes before `k` that the root is made of have become their folded formulas. -/
structure Faithful (r : RootedGraph) (t : FunctionTable) (k : Nat) (s : Folding) : Prop where
  size : s.known.size = k
  becomes : ∀ i < k, r.graph.Uses r.root i →
    (lookup s.known i).Becomes s.out ((r.graph.unfold i).fold t)

theorem lookup_push (known : Array Folded) (f : Folded) (i : Nat) :
    lookup (known.push f) i = if i = known.size then f else lookup known i :=
  getD_push known f _ i

theorem Faithful.constant (h : s.Faithful r t k) {v : Double}
    (hv : r.graph.Uses r.root k → (r.graph.unfold k).fold t = .const v) :
    (s.constant v).Faithful r t (k + 1) where
  size := by rw [Folding.constant, Array.size_push, h.size]
  becomes i hi huses := by
    simp only [Folding.constant, lookup_push, h.size]
    rcases Nat.lt_succ_iff_lt_or_eq.1 hi with hlt | rfl
    · rw [if_neg hlt.ne]
      exact h.becomes i hlt huses
    · rw [if_pos rfl]
      exact hv huses

theorem Faithful.grow (h : s.Faithful r t k) {e : Graph.Extension s.out}
    (he : e.Shows ((r.graph.unfold k).fold t))
    (hk : ∀ v, (r.graph.unfold k).fold t ≠ .const v) :
    (grow s.known s.below e).Faithful r t (k + 1) where
  size := by rw [Folding.grow, Array.size_push, h.size]
  becomes i hi huses := by
    simp only [Folding.grow, lookup_push, h.size]
    rcases Nat.lt_succ_iff_lt_or_eq.1 hi with hlt | rfl
    · rw [if_neg hlt.ne]
      exact (h.becomes i hlt huses).of_grows he.grows (lookup_below s.below i)
    · rw [if_pos rfl]
      exact ⟨he.tree, hk⟩

/-- The left operand that is placed first keeps the formula of the right one. -/
theorem shows_keepBin {out : Graph} (op : BinOp) (k l : Folded) (hk : k.Below out.size)
    (hl : l.Below out.size) : (keepBin op k l hk hl).Shows (.bin op (k.tree out) (l.tree out)) := by
  have hleft := Folded.shows_place out k hk
  have hright := Folded.shows_place (k.place out hk).1.graph l (hl.mono (k.place out hk).2)
  rw [Folded.tree_of_grows hleft.grows hl] at hright
  exact hleft.bin hright op

theorem Faithful.step (h : s.Faithful r t k) {n : Node Nat} (hn : r.graph.nodes[k]? = some n)
    (huses : r.graph.Uses r.root k) : (s.step t n).Faithful r t (k + 1) := by
  obtain ⟨hk, hnode⟩ := Array.getElem?_eq_some_iff.1 hn
  have hunfold := r.graph.unfold_eq k hk
  rw [hnode] at hunfold
  have hbecomes : ∀ c ∈ n.children,
      (lookup s.known c).Becomes s.out ((r.graph.unfold c).fold t) := by
    intro c hc
    have hchild : r.graph.Child k c := ⟨n, hn, hc⟩
    exact h.becomes c hchild.lt (huses.tail hchild)
  cases n with
  | const v =>
      apply h.constant
      intro _
      rw [hunfold]
      rfl
  | var v =>
      have hfold : (r.graph.unfold k).fold t = .var v := by
        rw [hunfold]
        rfl
      apply h.grow (e := .var s.out v)
      · rw [hfold]
        exact Graph.Extension.shows_var s.out v
      · simp [hfold]
  | bin op l l' =>
      have hl := hbecomes l (by simp [Node.children])
      have hl' := hbecomes l' (by simp [Node.children])
      have hfold : (r.graph.unfold k).fold t =
          Tree.foldBin op ((r.graph.unfold l).fold t) ((r.graph.unfold l').fold t) := by
        rw [hunfold]
        rfl
      rcases step_bin t s op l l' with ⟨a, b, ha, hb, hstep⟩ | ⟨hkeep, hstep⟩
      · rw [hstep]
        apply h.constant
        intro _
        rw [hfold, hl.eq_const_iff.2 ha, hl'.eq_const_iff.2 hb]
        rfl
      · have hbin : (r.graph.unfold k).fold t =
            .bin op ((r.graph.unfold l).fold t) ((r.graph.unfold l').fold t) := by
          rcases Tree.foldBin_cases op ((r.graph.unfold l).fold t) ((r.graph.unfold l').fold t) with
            ⟨a, b, ha, hb, -⟩ | ⟨-, hfold'⟩
          · exact absurd ⟨hl.eq_const_iff.1 ha, hl'.eq_const_iff.1 hb⟩ (hkeep a b)
          · exact hfold.trans hfold'
        rw [hstep]
        apply h.grow
        · rw [hbin, ← hl.tree_eq, ← hl'.tree_eq]
          exact shows_keepBin op _ _ _ _
        · simp [hbin]
  | call name a =>
      have ha := hbecomes a (by simp [Node.children])
      have hfold : (r.graph.unfold k).fold t =
          Tree.foldCall t name ((r.graph.unfold a).fold t) := by
        rw [hunfold]
        rfl
      rcases step_call t s name a with ⟨v, f, hv, hf, hstep⟩ | ⟨hkeep, hstep⟩
      · rw [hstep]
        apply h.constant
        intro _
        rw [hfold, ha.eq_const_iff.2 hv, Tree.foldCall, hf]
      · have hcall : (r.graph.unfold k).fold t = .call name ((r.graph.unfold a).fold t) := by
          rcases Tree.foldCall_cases t name ((r.graph.unfold a).fold t) with
            ⟨v, f, hv, hf, -⟩ | ⟨-, hfold'⟩
          · exact absurd ⟨ha.eq_const_iff.1 hv, hf⟩ (hkeep v f)
          · exact hfold.trans hfold'
        rw [hstep]
        apply h.grow
        · rw [hcall, ← ha.tree_eq]
          exact (Folded.shows_place s.out _ _).call name
        · simp [hcall]

end Folding

namespace RootedGraph

/-- Folding the nodes in order folds the tree of the root. -/
theorem tree_fold (r : RootedGraph) (t : FunctionTable) : (r.fold t).tree = r.tree.fold t := by
  have hstart : Folding.start.Faithful r t 0 := ⟨rfl, fun i hi ↦ absurd hi (Nat.not_lt_zero i)⟩
  have hstep : ∀ k s n b, Folding.Faithful r t k s → r.graph.nodes[k]? = some n →
      (b = true ↔ r.graph.Uses r.root k) → (s.stepMarked t (n, b)).Faithful r t (k + 1) := by
    intro k s n b h hn hb
    cases b with
    | true => exact h.step hn (hb.1 rfl)
    | false => exact h.constant fun huses ↦ absurd (hb.2 huses) Bool.false_ne_true
  have hall := Graph.foldl_marked hstep hstart
  have hplace := Folded.shows_place _ _ (Folding.lookup_below
    ((r.graph.marked r.root).foldl (Folding.stepMarked t) .start).below r.root)
  exact hplace.tree.trans (hall.becomes r.root (Nat.lt_succ_self _) .refl).tree_eq

theorem sameValue_fold (r : RootedGraph) (t : FunctionTable) :
    Tree.SameValue t (r.fold t).tree r.tree := by
  rw [r.tree_fold t]
  exact r.tree.sameValue_fold t

end RootedGraph

end Formula
