import Formula.Proofs.Code.Order
import Formula.Proofs.Graph.FoldOrder

/-!
# The function that is reported

Emission goes into the left operand first only where there is no call in the right one. So it comes
to the calls in one order whatever the switches are, each call before those of its argument and
those of a right operand before those of the left one, and stops at the first that has no entry.
Folding keeps the calls without an entry in this order.
-/

namespace Formula.Code

variable {t : FunctionTable}

theorem Plan.firstUnknown?_tree {P : Plan} (h : P.RightCallsFirst) :
    P.tree.firstUnknown? t = P.firstUnknown? t := by
  induction P with
  | const v => rfl
  | var v => rfl
  | bin op leftFirst force first second ih₁ ih₂ =>
      obtain ⟨hfree, hfirst, hsecond⟩ := h
      rw [firstUnknown?, ← ih₁ hfirst, ← ih₂ hsecond]
      cases leftFirst with
      | false => exact Tree.firstUnknown?_bin t op _ _
      | true =>
          -- The right operand comes second and calls nothing.
          rw [tree, Tree.firstUnknown?_bin, Tree.firstUnknown?_of_hasCall_eq_false (hfree rfl),
            Option.none_or, Option.or_none]
  | call name arg ih => rw [firstUnknown?, ← ih h, tree, Tree.firstUnknown?_call]

theorem assemble_of_firstUnknown?_tree {r : RootedGraph} {name : String}
    (h : r.tree.firstUnknown? t = some name) (s : Switches) :
    (assemble r t s).1 = .error (.unknownFunction ⟨name⟩) := by
  apply assemble_of_firstUnknown?
  rw [← Plan.firstUnknown?_tree (rightCallsFirst_planOf r s), tree_planOf, h]

theorem exists_assemble_iff {r : RootedGraph} {s : Switches} :
    (∃ asm, (assemble r t s).1 = .ok asm) ↔ r.tree.Known t := by
  constructor
  · rintro ⟨asm, hasm⟩
    exact known_of_assemble hasm
  · intro hknown
    obtain ⟨asm, hasm, -⟩ := assemble_of_known s hknown
    exact ⟨asm, hasm⟩

/-- A formula is assembled exactly if it can be evaluated, which it can exactly if every call that
it is made of has an entry. Otherwise the function reported is the first without an entry, each call
taken before its argument and the right operand before the left one; it is the same under all
switches, and the same if the formula is folded first. -/
theorem unknown_function_is_first (r : RootedGraph) (t : FunctionTable) (s : Switches) :
    (∀ x y, (∃ asm, (assemble r t s).1 = .ok asm) ↔ ∃ v, r.evaluate t x y = .ok v) ∧
      ((∃ asm, (assemble r t s).1 = .ok asm) ↔
        ∀ i name a, r.graph.Uses r.root i → r.graph.nodes[i]? = some (.call name a) →
          t.contains name = true) ∧
      ((¬ ∃ asm, (assemble r t s).1 = .ok asm) → ∃ name, r.tree.firstUnknown? t = some name ∧
        ∀ s', (assemble r t s').1 = .error (.unknownFunction ⟨name⟩) ∧
          (assemble (r.fold t) t s').1 = .error (.unknownFunction ⟨name⟩)) := by
  have hevaluate : ∀ x y, (∃ v, r.evaluate t x y = .ok v) ↔ r.tree.Known t := by
    intro x y
    simp only [RootedGraph.evaluate_eq_ok_iff, Tree.exists_value_iff]
  refine ⟨fun x y ↦ ?_, ?_, fun hfail ↦ ?_⟩
  · rw [exists_assemble_iff, hevaluate]
  · rw [exists_assemble_iff, ← hevaluate 0 0, RootedGraph.exists_evaluate_iff]
  · rw [exists_assemble_iff, ← Tree.firstUnknown?_eq_none_iff] at hfail
    obtain ⟨name, hname⟩ := Option.ne_none_iff_exists'.1 hfail
    refine ⟨name, hname, fun s' ↦ ⟨assemble_of_firstUnknown?_tree hname s', ?_⟩⟩
    apply assemble_of_firstUnknown?_tree
    rw [r.tree_fold t, Tree.firstUnknown?_fold, hname]

end Formula.Code
