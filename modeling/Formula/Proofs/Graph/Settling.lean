import Formula.Proofs.Graph.Checked

/-!
# One pass settles the marks

A node is marked in the end exactly if a chain of operands leads down to it from the root. Every
operand of a marked node is marked then, so going through the nodes once more finds nothing to mark
(`Graph.sweep_reachable`).
-/

namespace Formula.Graph

variable {g : Graph} {i j : Nat} {path : List Nat}

theorem Path.uses (h : g.Path i path) (hj : j ∈ path) : g.Uses i j := by
  induction h with
  | here i =>
      rw [List.mem_singleton.1 hj]
      exact .refl
  | down hchild _ ih =>
      rcases List.mem_cons.1 hj with rfl | hj
      · exact .refl
      · exact .head hchild (ih hj)

/-- A node is made of the nodes that the paths down from it end at. -/
theorem uses_iff_exists_path : g.Uses i j ↔ ∃ path, g.Path i path ∧ path.getLast? = some j := by
  constructor
  · intro h
    induction h using Relation.ReflTransGen.head_induction_on with
    | refl => exact ⟨[j], .here j, rfl⟩
    | head hchild _ ih =>
        obtain ⟨path, hpath, hlast⟩ := ih
        refine ⟨_ :: path, .down hchild hpath, ?_⟩
        rw [List.getLast?_cons, hlast, Option.getD_some]
  · rintro ⟨path, hpath, hlast⟩
    exact hpath.uses (List.mem_of_getLast? hlast)

theorem eq_of_live_iff {a b : Array Bool} (hsize : a.size = b.size)
    (h : ∀ i, Live a i ↔ Live b i) : a = b := by
  apply Array.ext hsize
  intro i ha hb
  have hi := h i
  rw [live_iff, live_iff, Array.getElem?_eq_getElem ha, Array.getElem?_eq_getElem hb] at hi
  simpa using hi

theorem closedFrom_reachable (root : Fin g.size) (k : Nat) :
    g.ClosedFrom k (g.reachable root) := by
  intro i c _ hlive hchild
  rw [live_reachable_iff] at hlive ⊢
  exact hlive.tail hchild

/-- A second pass changes no mark, from wherever it starts. -/
theorem sweep_reachable (root : Fin g.size) (k : Nat) :
    g.sweep k (g.reachable root) = g.reachable root := by
  apply eq_of_live_iff (size_sweep g k _)
  intro i
  -- Nothing is marked anew: what a marked node is made of, the root is made of already.
  rw [live_sweep_iff (closedFrom_reachable root k)]
  constructor
  · rintro ⟨j, hj, huses⟩
    rw [live_reachable_iff] at hj ⊢
    exact hj.trans huses
  · intro hi
    exact ⟨i, hi, .refl⟩

/-- One pass from the root down settles what the root is made of. It reads and writes no mark and no
node that is not there, and leaves a mark for each node up to the root. The nodes marked are those
that a path of operands leads to from the root, and no such path goes through a node behind the
root. A second pass changes nothing. -/
theorem one_pass_settles_marks (g : Graph) (root : Fin g.size) :
    g.reachableChecked root = some (g.reachable root) ∧
      (g.reachable root).size = root + 1 ∧
      (∀ i : Nat, (g.reachable root)[i]? = some true ↔
        ∃ path, g.Path root path ∧ path.getLast? = some i) ∧
      (∀ path, g.Path root path → ∀ i ∈ path, i ≤ root) ∧
      ∀ k, g.sweep k (g.reachable root) = g.reachable root := by
  refine ⟨g.reachableChecked_eq root, g.size_reachable root, ?_, ?_, sweep_reachable root⟩
  · intro i
    rw [← live_iff, live_reachable_iff, uses_iff_exists_path]
  · intro path hpath i hi
    exact (hpath.uses hi).le

-- A constant that nothing uses stands before the call of `x`, a variable behind it.
example :
    let g : Graph := ⟨#[.const 7, .var .x, .call "sin" 1, .var .y], by decide⟩
    g.reachable ⟨2, by decide⟩ = #[false, true, true] := by
  decide

end Formula.Graph
