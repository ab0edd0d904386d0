import Formula.Graph.Value
import Formula.Proofs.Graph.Reachable

/-!
# Evaluation computes the tree

Evaluation goes through the nodes in order and skips those that the root is not made of. So the
nodes before the current one have the values of their formulas, and the first call of a function
without an entry is the one that is reported (`RootedGraph.evaluate_spec`).
-/

namespace Formula

variable {t : FunctionTable} {x y : Double}

/-- The value of a node is that of its tree, if the operands have the values of theirs. -/
theorem Tree.value_ofNode {n : Node Nat} {f : Nat → Tree} {vals : Nat → Double}
    (h : ∀ c ∈ n.children, (f c).value t x y = some (vals c)) :
    (Tree.ofNode (n.map f)).value t x y = ((n.map vals).value t x y).toOption := by
  cases n with
  | const v => rfl
  | var v => cases v <;> rfl
  | bin op l r =>
      have hl := h l (by simp [Node.children])
      have hr := h r (by simp [Node.children])
      simp [Tree.ofNode, Node.map, Tree.value, Node.value, hl, hr, Except.toOption]
  | call name a =>
      have ha := h a (by simp [Node.children])
      cases hf : t.get? name <;>
        simp [Tree.ofNode, Node.map, Tree.value, Node.value, ha, hf, Except.toOption]

theorem Node.call_of_value_eq_error {n : Node Nat} {vals : Nat → Double} {e : UnknownFunction}
    (h : (n.map vals).value t x y = .error e) : ∃ a, n = .call e.name a ∧ t.get? e.name = none := by
  cases n with
  | const v => cases h
  | var v => cases v <;> cases h
  | bin op l r => cases h
  | call name a =>
      cases hf : t.get? name with
      | some f => simp [Node.map, Node.value, hf] at h
      | none =>
          simp only [Node.map, Node.value, hf, Except.error.injEq] at h
          subst h
          exact ⟨a, rfl, hf⟩

namespace Graph

variable {g : Graph}

theorem known_of_child {i c : Nat} (h : g.Child i c) (hi : (g.unfold i).Known t) :
    (g.unfold c).Known t := by
  obtain ⟨n, hn, hc⟩ := h
  obtain ⟨hlt, rfl⟩ := Array.getElem?_eq_some_iff.1 hn
  rw [g.unfold_eq i hlt] at hi
  cases hnode : g.nodes[i] with
  | const v => simp [hnode, Node.children] at hc
  | var v => simp [hnode, Node.children] at hc
  | bin op l r =>
      simp only [hnode, Node.children, List.mem_cons, List.not_mem_nil, or_false] at hc
      rw [hnode] at hi
      rcases hc with rfl | rfl
      · exact hi.1
      · exact hi.2
  | call name a =>
      simp only [hnode, Node.children, List.mem_singleton] at hc
      rw [hnode] at hi
      subst hc
      exact hi.2

theorem Uses.known {i j : Nat} (h : g.Uses i j) (hi : (g.unfold i).Known t) :
    (g.unfold j).Known t := by
  induction h with
  | refl => exact hi
  | tail _ hchild ih => exact known_of_child hchild ih

end Graph

namespace RootedGraph

/-- The nodes before `k` that the root is made of have the values of their formulas. -/
structure Valued (r : RootedGraph) (t : FunctionTable) (x y : Double) (k : Nat)
    (values : Array Double) : Prop where
  size : values.size = k
  value : ∀ i < k, r.graph.Uses r.root i →
    (r.graph.unfold i).value t x y = some (values.getD i 0)

/-- The function named is the one of the first call without an entry that the root is made of. -/
def FirstUnknown (r : RootedGraph) (t : FunctionTable) (e : UnknownFunction) : Prop :=
  ∃ i a, r.graph.Uses r.root i ∧ r.graph.nodes[i]? = some (.call e.name a) ∧
    t.get? e.name = none ∧ ∀ j < i, r.graph.Uses r.root j → (r.graph.unfold j).Known t

theorem Valued.push {r : RootedGraph} {k : Nat} {values : Array Double}
    (h : r.Valued t x y k values) {v : Double}
    (hv : r.graph.Uses r.root k → (r.graph.unfold k).value t x y = some v) :
    r.Valued t x y (k + 1) (values.push v) where
  size := by rw [Array.size_push, h.size]
  value i hi huses := by
    rw [getD_push, h.size]
    rcases Nat.lt_succ_iff_lt_or_eq.1 hi with hlt | rfl
    · rw [if_neg hlt.ne, h.value i hlt huses]
    · rw [if_pos rfl, hv huses]

theorem Valued.pushValue {r : RootedGraph} {k : Nat} {values : Array Double}
    (h : r.Valued t x y k values) {n : Node Nat} (hn : r.graph.nodes[k]? = some n)
    {b : Bool} (hb : b = true ↔ r.graph.Uses r.root k) :
    (∀ values', pushValue t x y values (n, b) = .ok values' → r.Valued t x y (k + 1) values') ∧
      ∀ e, pushValue t x y values (n, b) = .error e → r.FirstUnknown t e := by
  cases b with
  | false =>
      have hunused : ¬ r.graph.Uses r.root k := fun huses ↦ Bool.false_ne_true (hb.2 huses)
      constructor
      · rintro _ ⟨⟩
        exact h.push fun huses ↦ absurd huses hunused
      · rintro e ⟨⟩
  | true =>
      have huses := hb.1 rfl
      obtain ⟨hk, hnode⟩ := Array.getElem?_eq_some_iff.1 hn
      have hchildren : ∀ c ∈ n.children,
          (r.graph.unfold c).value t x y = some (values.getD c 0) := by
        intro c hc
        have hchild : r.graph.Child k c := ⟨n, hn, hc⟩
        exact h.value c hchild.lt (huses.tail hchild)
      have hvalue := Tree.value_ofNode hchildren
      rw [← hnode, ← r.graph.unfold_eq k hk, hnode] at hvalue
      simp only [RootedGraph.pushValue]
      cases hout : (n.map fun c ↦ values.getD c 0).value t x y with
      | ok v =>
          rw [hout] at hvalue
          constructor
          · rintro _ ⟨⟩
            exact h.push fun _ ↦ hvalue
          · rintro e ⟨⟩
      | error e =>
          constructor
          · rintro _ ⟨⟩
          · rintro _ ⟨⟩
            have hknown : ∀ j < k, r.graph.Uses r.root j → (r.graph.unfold j).Known t :=
              fun j hj hused ↦ (Tree.exists_value_iff t x y _).1 ⟨_, h.value j hj hused⟩
            obtain ⟨a, rfl, hnone⟩ := Node.call_of_value_eq_error hout
            exact ⟨k, a, huses, hn, hnone, hknown⟩

/-- A formula has the value that evaluation gives; otherwise the first function without an entry is
named. -/
theorem evaluate_spec (r : RootedGraph) (t : FunctionTable) (x y : Double) :
    (∀ v, r.evaluate t x y = .ok v → r.tree.value t x y = some v) ∧
      ∀ e, r.evaluate t x y = .error e → r.FirstUnknown t e := by
  have hstart : r.Valued t x y 0 #[] := ⟨rfl, fun i hi ↦ absurd hi (Nat.not_lt_zero i)⟩
  obtain ⟨hok, herr⟩ := Graph.foldlM_marked (motive := r.Valued t x y)
    (fun _ _ _ _ h hn hb ↦ h.pushValue hn hb) hstart
  simp only [evaluate]
  cases hrun : (r.graph.marked r.root).foldlM (RootedGraph.pushValue t x y) #[] with
  | ok values =>
      constructor
      · rintro _ ⟨⟩
        exact (hok values hrun).value r.root (Nat.lt_succ_self _) .refl
      · rintro e ⟨⟩
  | error e =>
      constructor
      · rintro _ ⟨⟩
      · rintro _ ⟨⟩
        exact herr e hrun

theorem FirstUnknown.not_known {r : RootedGraph} {e : UnknownFunction} (h : r.FirstUnknown t e) :
    ¬ r.tree.Known t := by
  obtain ⟨i, a, huses, hn, hnone, -⟩ := h
  intro hknown
  obtain ⟨hi, hnode⟩ := Array.getElem?_eq_some_iff.1 hn
  have hcall := huses.known hknown
  rw [r.graph.unfold_eq i hi, hnode] at hcall
  obtain ⟨f, hf⟩ := (t.contains_eq_true_iff _).1 hcall.1
  rw [hnone] at hf
  cases hf

theorem evaluate_eq_ok_iff {r : RootedGraph} {v : Double} :
    r.evaluate t x y = .ok v ↔ r.tree.value t x y = some v := by
  obtain ⟨hok, herr⟩ := r.evaluate_spec t x y
  refine ⟨hok v, fun hv ↦ ?_⟩
  cases hrun : r.evaluate t x y with
  | ok w =>
      have hw := hok w hrun
      rw [hv] at hw
      cases hw
      rfl
  | error e =>
      exact absurd ((Tree.exists_value_iff t x y _).1 ⟨v, hv⟩) (herr e hrun).not_known

end RootedGraph

end Formula
