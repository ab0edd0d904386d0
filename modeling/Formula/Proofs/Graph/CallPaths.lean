import Formula.Proofs.Code.Scheduling
import Formula.Proofs.Graph.CheckedCalls
import Formula.Proofs.Graph.Evaluation

/-!
# The paths behind the analysis of calls

The analysis fills its tables in one pass, each entry from those of the operands. Said without the
tables: there is a call in a node exactly if the node is made of one (`Graph.hasCall_unfold_iff`),
and calls nest in a node as deeply as there are calls on the path down from it that has the most of
them (`Graph.isGreatest_callDepth`).
-/

namespace Formula

namespace Node

def isCall {α : Type} : Node α → Bool
  | call _ _ => true
  | _ => false

theorem isCall_map {α β : Type} (f : α → β) (n : Node α) : (n.map f).isCall = n.isCall := by
  cases n <;> rfl

theorem holdsCall_iff (n : Node Bool) :
    n.holdsCall = true ↔ n.isCall = true ∨ true ∈ n.children := by
  cases n with
  | const v => simp [holdsCall, isCall, children]
  | var v => simp [holdsCall, isCall, children]
  | bin op a b => cases a <;> simp [holdsCall, isCall, children]
  | call name a => simp [holdsCall, isCall]

variable {n : Node Nat}

theorem toNat_isCall_le : n.isCall.toNat ≤ n.nestedCalls := by
  cases n <;> simp [isCall, nestedCalls]

theorem toNat_isCall_add_le {d : Nat} (h : d ∈ n.children) :
    n.isCall.toNat + d ≤ n.nestedCalls := by
  cases n <;> simp_all [isCall, nestedCalls, children]
  all_goals omega

/-- Calls nest as deeply as in some operand, and one deeper in a call. -/
theorem nestedCalls_cases (n : Node Nat) :
    n.nestedCalls = n.isCall.toNat ∨ ∃ d ∈ n.children, n.nestedCalls = n.isCall.toNat + d := by
  cases n with
  | const v => exact .inl rfl
  | var v => exact .inl rfl
  | bin op a b =>
      right
      rcases max_choice a b with hmax | hmax
      · exact ⟨a, by simp [children], by simp [nestedCalls, isCall, hmax]⟩
      · exact ⟨b, by simp [children], by simp [nestedCalls, isCall, hmax]⟩
  | call name a => exact .inr ⟨a, by simp [children], Nat.add_comm a 1⟩

end Node

theorem Tree.hasCall_ofNode (n : Node Tree) : (ofNode n).hasCall = (n.map hasCall).holdsCall := by
  cases n <;> rfl

theorem Tree.callDepth_ofNode (n : Node Tree) :
    (ofNode n).callDepth = (n.map callDepth).nestedCalls := by
  cases n <;> rfl

namespace Graph

def isCall (g : Graph) (i : Nat) : Bool := g.nodes[i]?.any Node.isCall

variable {g : Graph}

theorem getElem?_nodes (g : Graph) (i : Fin g.size) : g.nodes[i.val]? = some (g.node i) :=
  Array.getElem?_eq_getElem i.2

theorem isCall_eq (g : Graph) (i : Fin g.size) : g.isCall i = (g.node i).isCall := by
  rw [isCall, getElem?_nodes, Option.any_some]

theorem child_iff {i : Fin g.size} {c : Nat} : g.Child i c ↔ c ∈ (g.node i).children := by
  simp [Child, getElem?_nodes]

theorem callDepth_unfold (g : Graph) (i : Fin g.size) :
    (g.unfold i).callDepth = ((g.node i).map (Tree.callDepth ∘ g.unfold)).nestedCalls := by
  rw [unfold_node, Tree.callDepth_ofNode, Node.map_map]

/-- There is a call in a node that is one, and in a node with a call in an operand. -/
theorem hasCall_unfold_cases (g : Graph) (i : Fin g.size) :
    (g.unfold i).hasCall = true ↔
      g.isCall i = true ∨ ∃ c, g.Child i c ∧ (g.unfold c).hasCall = true := by
  rw [unfold_node, Tree.hasCall_ofNode, Node.map_map, Node.holdsCall_iff, Node.isCall_map,
    Node.children_map, isCall_eq]
  simp [child_iff]

/-- There is a call in a node exactly if the node is made of one. -/
theorem hasCall_unfold_iff (g : Graph) (i : Fin g.size) :
    (g.unfold i).hasCall = true ↔ ∃ j, g.Uses i j ∧ g.isCall j = true := by
  obtain ⟨i, hi⟩ := i
  induction i using Nat.strong_induction_on with
  | _ i ih =>
    rw [hasCall_unfold_cases]
    constructor
    · rintro (hcall | ⟨c, hchild, hcall⟩)
      · exact ⟨i, .refl, hcall⟩
      · obtain ⟨j, huses, hj⟩ := (ih c hchild.lt (hchild.lt.trans hi)).1 hcall
        exact ⟨j, .head hchild huses, hj⟩
    · rintro ⟨j, huses, hj⟩
      rcases Relation.ReflTransGen.cases_head huses with rfl | ⟨c, hchild, huses⟩
      · exact .inl hj
      · exact .inr ⟨c, hchild, (ih c hchild.lt (hchild.lt.trans hi)).2 ⟨j, huses, hj⟩⟩

/-- No path down from a node has more calls on it than nest in the node. -/
theorem Path.countP_le {i : Nat} {path : List Nat} (h : g.Path i path) (hi : i < g.size) :
    path.countP g.isCall ≤ (g.unfold i).callDepth := by
  induction h with
  | here i =>
      rw [countP_cons_toNat, List.countP_nil, isCall_eq g ⟨i, hi⟩, callDepth_unfold g ⟨i, hi⟩,
        ← Node.isCall_map (Tree.callDepth ∘ g.unfold)]
      exact Node.toNat_isCall_le
  | @down i c path hchild _ ih =>
      have hrest := ih (hchild.lt.trans hi)
      have hmem : (g.unfold c).callDepth ∈
          ((g.node ⟨i, hi⟩).map (Tree.callDepth ∘ g.unfold)).children := by
        rw [Node.children_map]
        exact List.mem_map.2 ⟨c, child_iff.1 hchild, rfl⟩
      have hle := Node.toNat_isCall_add_le hmem
      rw [countP_cons_toNat, isCall_eq g ⟨i, hi⟩, callDepth_unfold g ⟨i, hi⟩]
      rw [Node.isCall_map] at hle
      omega

theorem exists_path (g : Graph) (i : Fin g.size) :
    ∃ path, g.Path i path ∧ path.countP g.isCall = (g.unfold i).callDepth := by
  obtain ⟨i, hi⟩ := i
  induction i using Nat.strong_induction_on with
  | _ i ih =>
    have hself := isCall_eq g ⟨i, hi⟩
    rw [callDepth_unfold]
    rcases Node.nestedCalls_cases ((g.node ⟨i, hi⟩).map (Tree.callDepth ∘ g.unfold)) with
      hdepth | ⟨d, hd, hdepth⟩
    · refine ⟨[i], .here i, ?_⟩
      rw [hdepth, countP_cons_toNat, List.countP_nil, Node.isCall_map, hself]
      rfl
    · rw [Node.children_map] at hd
      obtain ⟨c, hc, rfl⟩ := List.mem_map.1 hd
      have hchild : g.Child i c := child_iff (i := ⟨i, hi⟩).2 hc
      obtain ⟨path, hpath, hcount⟩ := ih c hchild.lt (hchild.lt.trans hi)
      refine ⟨i :: path, .down hchild hpath, ?_⟩
      rw [hdepth, countP_cons_toNat, Node.isCall_map, hcount, hself]
      rfl

/-- Calls nest in a node as deeply as there are calls on a path down from it, at most. -/
theorem isGreatest_callDepth (g : Graph) (i : Fin g.size) :
    IsGreatest {n | ∃ path, g.Path i path ∧ path.countP g.isCall = n} (g.unfold i).callDepth := by
  refine ⟨g.exists_path i, ?_⟩
  rintro n ⟨path, hpath, rfl⟩
  exact hpath.countP_le i.2

end Graph

namespace CallAnalysis

/-- The analysis of a graph that is not too large finds what there is to find: its passes stay
within their tables and within 32 bits, a node is said to have calls exactly if one of the nodes
that it is made of is a call, and the depth of a node is the greatest number of calls on a path down
from it. -/
theorem analysis_finds_calls {g : Graph} (hsize : g.size < 2 ^ 32) (i : Fin g.size) :
    (∀ useDepth, runChecked g useDepth = some (run g useDepth) ∧
      ((run g useDepth).hasCall i = true ↔
        ∃ j : Nat, (g.reachable i)[j]? = some true ∧ g.isCall j = true)) ∧
      IsGreatest {n | ∃ path, g.Path i path ∧ path.countP g.isCall = n} ((run g true).depth i) ∧
      (0 < (run g true).depth i ↔ (run g true).hasCall i = true) ∧
      (run g true).depth i < 2 ^ 32 := by
  have hdepth : (run g true).depth i = (g.unfold i).callDepth := depth_run g true i
  refine ⟨fun useDepth ↦ ⟨runChecked_eq hsize useDepth, ?_⟩, ?_, ?_, ?_⟩
  · rw [hasCall_run, Graph.hasCall_unfold_iff]
    simp only [← Graph.live_reachable_iff, Graph.live_iff]
  · rw [hdepth]
    exact g.isGreatest_callDepth i
  · rw [hdepth, hasCall_run]
    exact Tree.callDepth_pos_iff
  · have hle : (run g true).depth i ≤ i := depth_scan_le g i
    exact (hle.trans_lt i.2).trans hsize

/-- A call of a call beside a call, with a call that nothing uses behind them. -/
theorem analysis_finds_calls_of_nested_call :
    let g : Graph := ⟨#[.var .x, .call "sin" 0, .call "cos" 1, .bin .add 1 2, .call "tan" 3],
      by decide⟩
    runChecked g true = some (run g true) ∧
      ((run g true).hasCall 3 = true ↔
        ∃ j : Nat, (g.reachable ⟨3, by decide⟩)[j]? = some true ∧ g.isCall j = true) ∧
      IsGreatest {n | ∃ path, g.Path 3 path ∧ path.countP g.isCall = n} 2 := by
  intro g
  have hsize : g.size < 2 ^ 32 := by decide
  obtain ⟨hfound, hgreatest, -, -⟩ := analysis_finds_calls hsize ⟨3, by decide⟩
  have hdepth : (run g true).depth 3 = 2 := by decide
  obtain ⟨hrun, hcalls⟩ := hfound true
  exact ⟨hrun, hcalls, hdepth ▸ hgreatest⟩

end CallAnalysis

end Formula
