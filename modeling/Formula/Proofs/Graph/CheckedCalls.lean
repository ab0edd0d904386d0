import Formula.Proofs.Graph.Checked

/-!
# The analysis of calls with every access checked

The analysis is written here as two passes that fill arrays of a fixed size. A pass gives up where
an index is out of range or where a depth leaves 32 bits. Calls nest no deeper in a node than
there are nodes before it, so in a graph of less than `2 ^ 32` nodes neither happens, and what comes
out is `CallAnalysis.run` (`CallAnalysis.runChecked_eq`).
-/

namespace Formula

theorem getElem?_eq_some_getD {α : Type} {as : Array α} {i : Nat} (h : i < as.size) (d : α) :
    as[i]? = some (as.getD i d) := by
  rw [Array.getD_eq_getD_getElem?, Array.getElem?_eq_getElem h]
  rfl

/-- An array that has been filled up to `k`; what follows has not been touched. -/
structure Filled {α : Type} (target : Array α) (d : α) (k : Nat) (as : Array α) : Prop where
  size_eq : as.size = target.size
  old : ∀ i < k, as[i]? = target[i]?
  fresh : ∀ i, k ≤ i → i < target.size → as[i]? = some d

namespace Filled

variable {α : Type} {target as : Array α} {d : α} {k : Nat}

theorem write (h : Filled target d k as) {a : α} (ha : target[k]? = some a) :
    writeChecked as k a = some (as.setIfInBounds k a) ∧
      Filled target d (k + 1) (as.setIfInBounds k a) := by
  have hk : k < as.size := by
    rw [h.size_eq]
    exact (Array.getElem?_eq_some_iff.1 ha).1
  refine ⟨writeChecked_of_lt hk a, by simp [h.size_eq], fun i hi ↦ ?_, fun i hi hlt ↦ ?_⟩
  · rw [Array.getElem?_setIfInBounds]
    by_cases hik : k = i
    · subst hik
      rw [if_pos rfl, if_pos hk, ha]
    · rw [if_neg hik]
      exact h.old i (by omega)
  · rw [Array.getElem?_setIfInBounds_ne (by omega)]
    exact h.fresh i (by omega) hlt

theorem getElem?_eq (h : Filled target d k as) {i : Nat} (hi : i < k) (hlt : i < target.size)
    (e : α) : as[i]? = some (target.getD i e) := by
  rw [h.old i hi, getElem?_eq_some_getD hlt e]

theorem skip (h : Filled target d k as) (ha : target[k]? = some d) :
    Filled target d (k + 1) as := by
  refine ⟨h.size_eq, fun i hi ↦ ?_, fun i hi ↦ h.fresh i (by omega)⟩
  by_cases hik : i = k
  · subst hik
    rw [ha]
    exact h.fresh i le_rfl (Array.getElem?_eq_some_iff.1 ha).1
  · exact h.old i (by omega)

/-- A pass that puts one entry after the other in its place comes out with the whole array. -/
theorem foldlM_range {n : Nat} (hn : target.size = n) {step : Array α → Nat → Option (Array α)}
    (hstep : ∀ k < n, ∀ as, Filled target d k as →
      ∃ as', step as k = some as' ∧ Filled target d (k + 1) as') :
    (List.range n).foldlM step (Array.replicate n d) = some target := by
  have hpart : ∀ k ≤ n, ∃ as, (List.range k).foldlM step (Array.replicate n d) = some as ∧
      Filled target d k as := by
    intro k hk
    induction k with
    | zero =>
        refine ⟨_, rfl, by simp [hn], by simp, fun i _ hi ↦ ?_⟩
        rw [Array.getElem?_replicate, if_pos (hn ▸ hi)]
    | succ k ih =>
        obtain ⟨as, hrun, hfilled⟩ := ih (by omega)
        obtain ⟨as', hnext, hfilled'⟩ := hstep k hk as hfilled
        refine ⟨as', ?_, hfilled'⟩
        rw [List.range_succ, List.foldlM_append, hrun]
        change [k].foldlM step as = some as'
        rw [List.foldlM_cons, hnext]
        rfl
  obtain ⟨as, hrun, hfilled⟩ := hpart n le_rfl
  have hall : as = target := Array.ext_getElem? fun i ↦ by
    by_cases hi : i < n
    · exact hfilled.old i hi
    · rw [Array.getElem?_eq_none (by rw [hfilled.size_eq]; omega),
        Array.getElem?_eq_none (by omega)]
  rw [hrun, hall]

end Filled

namespace CallAnalysis

def holdsCallChecked (calls : Array Bool) : Node Nat → Option Bool
  | .const _ | .var _ => some false
  | .bin _ l r => do if ← calls[l]? then return true else calls[r]?
  | .call _ _ => some true

def nestedCallsChecked (depths : Array Nat) : Node Nat → Option Nat
  | .const _ | .var _ => some 0
  | .bin _ l r => return max (← depths[l]?) (← depths[r]?)
  | .call _ a => do
    let d ← depths[a]?
    if d + 1 < 2 ^ 32 then some (d + 1) else none

def recordCalls (g : Graph) : Option (Array Bool) :=
  (List.range g.size).foldlM (fun calls i ↦ do
    writeChecked calls i (← holdsCallChecked calls (← g.nodes[i]?))) (Array.replicate g.size false)

/-- The depths. Nodes without calls are passed over. -/
def recordDepths (g : Graph) (calls : Array Bool) : Option (Array Nat) :=
  (List.range g.size).foldlM (fun depths i ↦ do
    if ← calls[i]? then writeChecked depths i (← nestedCallsChecked depths (← g.nodes[i]?))
    else return depths) (Array.replicate g.size 0)

/-- The analysis with every access checked. -/
def runChecked (g : Graph) (useDepth : Bool) : Option CallAnalysis := do
  let calls ← recordCalls g
  let depths ← if useDepth then recordDepths g calls else some (Array.replicate g.size 0)
  return ⟨calls, depths⟩

theorem depth_scan_le (g : Graph) (i : Fin g.size) : (g.scan Node.nestedCalls).getD i 0 ≤ i := by
  induction i using Graph.node_induction with
  | const i v h => simp [g.getD_scan, h, Node.map, Node.nestedCalls]
  | var i v h => simp [g.getD_scan, h, Node.map, Node.nestedCalls]
  | bin i op l r h ihl ihr =>
      obtain ⟨hl, hr⟩ := Graph.lt_of_node_eq_bin h
      rw [g.getD_scan, h]
      exact max_le (ihl.trans hl.le) (ihr.trans hr.le)
  | call i name arg h ih =>
      rw [g.getD_scan, h]
      exact ih.trans_lt (Graph.lt_of_node_eq_call h)

theorem depth_scan_eq_zero (g : Graph) (i : Fin g.size)
    (hcall : (g.scan Node.holdsCall).getD i false = false) :
    (g.scan Node.nestedCalls).getD i 0 = 0 := by
  induction i using Graph.node_induction with
  | const i v h => simp [g.getD_scan, h, Node.map, Node.nestedCalls]
  | var i v h => simp [g.getD_scan, h, Node.map, Node.nestedCalls]
  | bin i op l r h ihl ihr =>
      rw [g.getD_scan, h] at hcall
      obtain ⟨hl, hr⟩ := Bool.or_eq_false_iff.1 hcall
      rw [g.getD_scan, h]
      exact Nat.max_eq_zero_iff.2 ⟨ihl hl, ihr hr⟩
  | call i name arg h _ =>
      rw [g.getD_scan, h] at hcall
      cases hcall

variable {n : Node Nat}

theorem holdsCallChecked_eq {calls : Array Bool} {v : Nat → Bool}
    (h : ∀ c ∈ n.children, calls[c]? = some (v c)) :
    holdsCallChecked calls n = some (n.map v).holdsCall := by
  cases n with
  | const a => rfl
  | var a => rfl
  | bin op l r =>
      have hl := h l (by simp [Node.children])
      have hr := h r (by simp [Node.children])
      simp only [holdsCallChecked, hl, hr, Node.map, Node.holdsCall, bind, Option.bind_some]
      cases v l <;> rfl
  | call name a => rfl

theorem nestedCallsChecked_eq {depths : Array Nat} {v : Nat → Nat}
    (h : ∀ c ∈ n.children, depths[c]? = some (v c) ∧ v c + 1 < 2 ^ 32) :
    nestedCallsChecked depths n = some (n.map v).nestedCalls := by
  cases n with
  | const a => rfl
  | var a => rfl
  | bin op l r =>
      have hl := (h l (by simp [Node.children])).1
      have hr := (h r (by simp [Node.children])).1
      simp [nestedCallsChecked, hl, hr, Node.map, Node.nestedCalls]
  | call name a =>
      obtain ⟨ha, hbound⟩ := h a (by simp [Node.children])
      simp only [nestedCallsChecked, ha, if_pos hbound, bind, Option.bind_some]
      rfl

theorem recordCalls_eq (g : Graph) : recordCalls g = some (g.scan Node.holdsCall) := by
  have hsize := g.size_scan Node.holdsCall
  refine Filled.foldlM_range hsize fun k hk as hfilled ↦ ?_
  have hnode : k < g.nodes.size := hk
  have hvalue : holdsCallChecked as g.nodes[k] = some _ := holdsCallChecked_eq fun c hc ↦ by
    have hck := g.below k hnode c hc
    exact hfilled.getElem?_eq hck (by omega) default
  obtain ⟨hwrite, hfilled'⟩ := hfilled.write (g.getElem?_scan Node.holdsCall k hnode)
  refine ⟨_, ?_, hfilled'⟩
  simp only [Array.getElem?_eq_getElem hnode, hvalue, bind, Option.bind_some]
  exact hwrite

theorem recordDepths_eq {g : Graph} (h : g.size < 2 ^ 32) :
    recordDepths g (g.scan Node.holdsCall) = some (g.scan Node.nestedCalls) := by
  have hsize := g.size_scan Node.nestedCalls
  refine Filled.foldlM_range hsize fun k hk as hfilled ↦ ?_
  have hnode : k < g.nodes.size := hk
  have hcalls : (g.scan Node.holdsCall)[k]? = some ((g.scan Node.holdsCall).getD k false) :=
    getElem?_eq_some_getD ((g.size_scan Node.holdsCall).symm ▸ hk) false
  have hdepth := g.getElem?_scan Node.nestedCalls k hnode
  simp only [hcalls, bind, Option.bind_some]
  cases hcall : (g.scan Node.holdsCall).getD k false with
  | true =>
      have hvalue : nestedCallsChecked as g.nodes[k] = some _ := nestedCallsChecked_eq fun c hc ↦ by
        have hck := g.below k hnode c hc
        have hle : (g.scan Node.nestedCalls).getD c default ≤ c :=
          depth_scan_le g ⟨c, hck.trans hk⟩
        exact ⟨hfilled.getElem?_eq hck (by omega) default, by omega⟩
      obtain ⟨hwrite, hfilled'⟩ := hfilled.write hdepth
      refine ⟨_, ?_, hfilled'⟩
      simp only [Array.getElem?_eq_getElem hnode, hvalue, Option.bind_some, if_true]
      exact hwrite
  | false =>
      refine ⟨as, rfl, hfilled.skip ?_⟩
      have hzero := depth_scan_eq_zero g ⟨k, hk⟩ hcall
      rw [Array.getD_eq_getD_getElem?, hdepth] at hzero
      rw [hdepth]
      exact congrArg some hzero

theorem runChecked_eq {g : Graph} (h : g.size < 2 ^ 32) (useDepth : Bool) :
    runChecked g useDepth = some (run g useDepth) := by
  rw [runChecked, recordCalls_eq]
  cases useDepth with
  | false => rfl
  | true =>
      simp only [bind, Option.bind_some, if_true, recordDepths_eq h]
      rfl

theorem size_containsCall_run (g : Graph) (useDepth : Bool) :
    (run g useDepth).containsCall.size = g.size :=
  g.size_scan _

theorem size_callDepth_run (g : Graph) (useDepth : Bool) :
    (run g useDepth).callDepth.size = g.size := by
  cases useDepth with
  | false => simp [run]
  | true => exact g.size_scan _

end CallAnalysis

end Formula
