import Formula.Proofs.Graph.FoldOrder

/-!
# Evaluation by one pass

Evaluation is written here once more with a table that has an empty place for every node up to the
root. A node fills its place, and the pass gives up where a place is out of range or still empty
when it is read. That never happens (`RootedGraph.evaluateChecked_eq`), so no operand counts as zero
for want of a value. What comes out depends on the nodes that the root is made of and on their order
alone (`RootedGraph.Embeds.evaluate_eq`).
-/

namespace Formula

variable {t : FunctionTable} {x y : Double}

/-- The value in a place of the table, if it has been filled. -/
def valueAt (values : Array (Option Double)) (i : Nat) : Option Double := values[i]?.join

namespace Node

def valueChecked (t : FunctionTable) (x y : Double) (values : Array (Option Double)) :
    Node Nat → ExceptT UnknownFunction Option Double
  | const v => return v
  | var .x => return x
  | var .y => return y
  | bin op l r => return op.apply (← valueAt values l) (← valueAt values r)
  | call name a =>
    match t.get? name with
    | some f => return f.apply (← valueAt values a)
    | none => throw ⟨name⟩

theorem run_valueChecked {values : Array (Option Double)} {vals : Nat → Double} {n : Node Nat}
    (h : ∀ c ∈ n.children, valueAt values c = some (vals c)) :
    (n.valueChecked t x y values).run = some ((n.map vals).value t x y) := by
  cases n with
  | const v => rfl
  | var v => cases v <;> rfl
  | bin op l r =>
      have hl := h l (by simp [children])
      have hr := h r (by simp [children])
      rw [valueChecked, hl, hr]
      rfl
  | call name a =>
      have ha := h a (by simp [children])
      rw [valueChecked, ha, map, value]
      cases t.get? name <;> rfl

theorem map_map {α β γ : Type} (f : α → β) (g : β → γ) (n : Node α) :
    (n.map f).map g = n.map (g ∘ f) := by
  cases n <;> rfl

theorem children_map {α β : Type} (f : α → β) (n : Node α) :
    (n.map f).children = n.children.map f := by
  cases n <;> rfl

end Node

namespace RootedGraph

def fillChecked (t : FunctionTable) (x y : Double) (g : Graph) (live : Array Bool)
    (values : Array (Option Double)) (i : Nat) :
    ExceptT UnknownFunction Option (Array (Option Double)) := do
  let n ← (g.nodes[i]? : Option (Node Nat))
  if ← (live[i]? : Option Bool) then
    let v ← n.valueChecked t x y values
    writeChecked values i (some v)
  else
    return values

/-- Evaluation with every access checked. -/
def evaluateChecked (r : RootedGraph) (t : FunctionTable) (x y : Double) :
    Option (Except UnknownFunction Double) := ExceptT.run do
  let live ← r.graph.reachableChecked r.root
  let values ← (List.range live.size).foldlM (fillChecked t x y r.graph live)
    (Array.replicate live.size none)
  valueAt values r.root

/-- The places before `k` that are needed are filled with what the unchecked pass has computed. -/
structure Filling (r : RootedGraph) (k : Nat) (computed : Array Double)
    (values : Array (Option Double)) : Prop where
  size : computed.size = k
  room : values.size = r.root + 1
  seen : ∀ i < k, r.graph.Uses r.root i → valueAt values i = some (computed.getD i 0)

variable {r : RootedGraph} {k : Nat} {computed : Array Double} {values : Array (Option Double)}

theorem Filling.skip (h : r.Filling k computed values) (hunused : ¬ r.graph.Uses r.root k)
    (v : Double) : r.Filling (k + 1) (computed.push v) values where
  size := by rw [Array.size_push, h.size]
  room := h.room
  seen i hi hused := by
    have hik : i ≠ k := fun hik ↦ hunused (hik ▸ hused)
    rw [getD_push, h.size, if_neg hik]
    exact h.seen i (by omega) hused

theorem Filling.fill (h : r.Filling k computed values) (hk : k ≤ r.root) (v : Double) :
    r.Filling (k + 1) (computed.push v) (values.setIfInBounds k (some v)) where
  size := by rw [Array.size_push, h.size]
  room := by rw [Array.size_setIfInBounds, h.room]
  seen i hi hused := by
    rw [getD_push, h.size, valueAt, Array.getElem?_setIfInBounds]
    by_cases hik : i = k
    · have hroom : k < values.size := h.room ▸ Nat.lt_succ_of_le hk
      rw [if_pos hik.symm, if_pos hroom, if_pos hik]
      rfl
    · rw [if_neg (Ne.symm hik), if_neg hik]
      exact h.seen i (by omega) hused

/-- The checked pass does with a node what the unchecked one does. -/
theorem Filling.next (h : r.Filling k computed values) {n : Node Nat} {b : Bool}
    (hn : r.graph.nodes[k]? = some n) (hb : b = true ↔ r.graph.Uses r.root k) (hk : k ≤ r.root) :
    (∀ computed', pushValue t x y computed (n, b) = .ok computed' → ∃ values',
      (fillChecked t x y r.graph (r.graph.reachable r.root) values k).run = some (.ok values') ∧
        r.Filling (k + 1) computed' values') ∧
      ∀ e, pushValue t x y computed (n, b) = .error e →
        (fillChecked t x y r.graph (r.graph.reachable r.root) values k).run =
          some (.error e) := by
  rw [fillChecked, hn, Graph.getElem?_reachable hk hb]
  cases b with
  | false =>
      have hunused : ¬ r.graph.Uses r.root k := fun huses ↦ Bool.false_ne_true (hb.2 huses)
      constructor
      · rintro _ ⟨⟩
        exact ⟨values, rfl, h.skip hunused 0⟩
      · rintro e ⟨⟩
  | true =>
      have hvalue := Node.run_valueChecked (t := t) (x := x) (y := y) fun c hc ↦
        have hchild : r.graph.Child k c := ⟨n, hn, hc⟩
        h.seen c hchild.lt ((hb.1 rfl).tail hchild)
      have hroom : k < values.size := h.room ▸ Nat.lt_succ_of_le hk
      simp only [pushValue]
      cases hout : (n.map fun c ↦ computed.getD c 0).value t x y with
      | error e =>
          rw [hout] at hvalue
          constructor
          · rintro _ ⟨⟩
          · rintro _ ⟨⟩
            simp [ExceptT.run_bind, hvalue]
      | ok v =>
          rw [hout] at hvalue
          constructor
          · rintro _ ⟨⟩
            refine ⟨_, ?_, h.fill hk v⟩
            simp [ExceptT.run_bind, hvalue, writeChecked_of_lt hroom]
          · rintro e ⟨⟩

/-- The checked pass through the first `k` nodes. -/
def fillTo (r : RootedGraph) (t : FunctionTable) (x y : Double) (k : Nat) :
    Option (Except UnknownFunction (Array (Option Double))) :=
  ((List.range k).foldlM (fillChecked t x y r.graph (r.graph.reachable r.root))
    (Array.replicate (r.root + 1) none)).run

theorem fillTo_succ (r : RootedGraph) (k : Nat) (h : r.fillTo t x y k = some (.ok values)) :
    r.fillTo t x y (k + 1) =
      (fillChecked t x y r.graph (r.graph.reachable r.root) values k).run := by
  unfold fillTo at h ⊢
  rw [List.range_succ, List.foldlM_append, ExceptT.run_bind, h]
  simp

theorem fillTo_of_error {e : UnknownFunction} (h : r.fillTo t x y k = some (.error e)) (d : Nat) :
    r.fillTo t x y (k + d) = some (.error e) := by
  unfold fillTo at h ⊢
  rw [List.range_add, List.foldlM_append, ExceptT.run_bind, h]
  rfl

theorem fillTo_of_foldlM (r : RootedGraph) (t : FunctionTable) (x y : Double) :
    (∀ computed, (r.graph.marked r.root).foldlM (pushValue t x y) #[] = .ok computed →
      ∃ values, r.fillTo t x y (r.root + 1) = some (.ok values) ∧
        r.Filling (r.root + 1) computed values) ∧
      ∀ e, (r.graph.marked r.root).foldlM (pushValue t x y) #[] = .error e →
        r.fillTo t x y (r.root + 1) = some (.error e) := by
  refine And.imp_left (fun hall computed hrun ↦ hall computed hrun le_rfl) <|
    Graph.foldlM_marked (motive := fun k computed ↦ k ≤ r.root.val + 1 → ∃ values,
      r.fillTo t x y k = some (.ok values) ∧ r.Filling k computed values) ?_ ?_
  · intro k computed n b hmotive hn hb
    constructor
    · intro computed' hpush hk
      obtain ⟨values, hfill, hvalues⟩ := hmotive (by omega)
      obtain ⟨values', hnext, hvalues'⟩ := (hvalues.next hn hb (by omega)).1 computed' hpush
      exact ⟨values', (r.fillTo_succ k hfill).trans hnext, hvalues'⟩
    · intro e hpush
      -- Only a node that the root is made of can stop the pass, so it is not behind the root.
      have hk : k ≤ r.root := by
        cases b with
        | false => cases hpush
        | true => exact (hb.1 rfl).le
      obtain ⟨values, hfill, hvalues⟩ := hmotive (by omega)
      have hstop := (r.fillTo_succ k hfill).trans ((hvalues.next hn hb hk).2 e hpush)
      have hrest := fillTo_of_error hstop (r.root - k)
      rwa [show k + 1 + (r.root - k) = r.root + 1 by omega] at hrest
  · intro _
    exact ⟨_, rfl, rfl, Array.size_replicate, fun i hi ↦ absurd hi (Nat.not_lt_zero i)⟩

/-- No place is read before it is filled, and the outcome is that of the unchecked pass. -/
theorem evaluateChecked_eq (r : RootedGraph) (t : FunctionTable) (x y : Double) :
    r.evaluateChecked t x y = some (r.evaluate t x y) := by
  have hpass : r.evaluateChecked t x y = ExceptT.run (do
      let values ← ExceptT.mk (r.fillTo t x y (r.root + 1))
      valueAt values r.root) := by
    rw [evaluateChecked, r.graph.reachableChecked_eq r.root, fillTo,
      ← r.graph.size_reachable r.root]
    rfl
  obtain ⟨hok, herr⟩ := r.fillTo_of_foldlM t x y
  rw [hpass, evaluate]
  cases hrun : (r.graph.marked r.root).foldlM (pushValue t x y) #[] with
  | error e =>
      rw [herr e hrun]
      rfl
  | ok computed =>
      obtain ⟨values, hfill, hvalues⟩ := hok computed hrun
      have hroot := hvalues.seen r.root (Nat.lt_succ_self _) .refl
      rw [hfill]
      simp [ExceptT.run_bind, hroot]

/-- The nodes that the root of `r` is made of stand in `r'` as well, at other indices perhaps but in
the same order, and the roots correspond. Nothing is said of the nodes that a root is not made
of. -/
structure Embeds (r r' : RootedGraph) (place : Nat → Nat) : Prop where
  root : place r.root = r'.root
  node : ∀ i n, r.graph.Uses r.root i → r.graph.nodes[i]? = some n →
    r'.graph.nodes[place i]? = some (n.map place)
  increasing : ∀ i j, r.graph.Uses r.root i → r.graph.Uses r.root j → i < j → place i < place j

namespace Embeds

variable {r' : RootedGraph} {place : Nat → Nat}

theorem unfold_place (h : r.Embeds r' place) {i : Nat} (hi : r.graph.Uses r.root i) :
    r'.graph.unfold (place i) = r.graph.unfold i := by
  induction i using Nat.strong_induction_on with
  | _ i ih =>
    have hlt : i < r.graph.nodes.size := hi.le.trans_lt r.root.2
    obtain ⟨hlt', hnode⟩ :=
      Array.getElem?_eq_some_iff.1 (h.node i _ hi (Array.getElem?_eq_getElem hlt))
    rw [r'.graph.unfold_eq _ hlt', r.graph.unfold_eq _ hlt, hnode, Node.map_map]
    congr 1
    apply Node.map_congr
    intro c hc
    have hchild : r.graph.Child i c := ⟨_, Array.getElem?_eq_getElem hlt, hc⟩
    exact ih c hchild.lt (hi.tail hchild)

theorem uses_iff (h : r.Embeds r' place) {j : Nat} :
    r'.graph.Uses r'.root j ↔ ∃ i, r.graph.Uses r.root i ∧ place i = j := by
  constructor
  · intro huses
    induction huses with
    | refl => exact ⟨r.root, .refl, h.root⟩
    | tail _ hchild ih =>
        obtain ⟨i, hi, rfl⟩ := ih
        obtain ⟨n', hn', hc⟩ := hchild
        have hlt : i < r.graph.nodes.size := hi.le.trans_lt r.root.2
        have hn := Array.getElem?_eq_getElem hlt
        rw [h.node i _ hi hn] at hn'
        cases hn'
        rw [Node.children_map, List.mem_map] at hc
        obtain ⟨c, hc, rfl⟩ := hc
        exact ⟨c, hi.tail ⟨_, hn, hc⟩, rfl⟩
  · rintro ⟨i, hi, rfl⟩
    induction hi with
    | refl => exact h.root ▸ .refl
    | tail hb hchild ih =>
        obtain ⟨n, hn, hc⟩ := hchild
        refine ih.tail ⟨n.map place, h.node _ n hb hn, ?_⟩
        rw [Node.children_map]
        exact List.mem_map_of_mem hc

theorem firstUnknown (h : r.Embeds r' place) {e : UnknownFunction} (he : r.FirstUnknown t e) :
    r'.FirstUnknown t e := by
  obtain ⟨i, a, huses, hcall, hnone, hfirst⟩ := he
  refine ⟨place i, place a, h.uses_iff.2 ⟨i, huses, rfl⟩, h.node i _ huses hcall, hnone, ?_⟩
  intro j hj huses'
  obtain ⟨i', hused, rfl⟩ := h.uses_iff.1 huses'
  have hlt : i' < i := by
    rcases Nat.lt_trichotomy i' i with hlt | rfl | hgt
    · exact hlt
    · exact absurd hj (lt_irrefl _)
    · exact absurd (h.increasing i i' huses hused hgt) hj.not_gt
  rw [h.unfold_place hused]
  exact hfirst i' hlt hused

theorem evaluate_eq (h : r.Embeds r' place) (t : FunctionTable) (x y : Double) :
    r'.evaluate t x y = r.evaluate t x y := by
  cases hrun : r.evaluate t x y with
  | ok v =>
      rw [evaluate_eq_ok_iff] at hrun ⊢
      rw [tree, ← h.root, h.unfold_place .refl]
      exact hrun
  | error e =>
      rw [evaluate_eq_error_iff] at hrun ⊢
      exact h.firstUnknown hrun

end Embeds

theorem firstUnknown_of_calls {i : Nat} {name : String} {a : Nat}
    (huses : r.graph.Uses r.root i) (hcall : r.graph.nodes[i]? = some (.call name a))
    (hname : t.contains name = false)
    (hfirst : ∀ j other b, j < i → r.graph.Uses r.root j →
      r.graph.nodes[j]? = some (.call other b) → t.contains other = true) :
    r.FirstUnknown t ⟨name⟩ := by
  refine ⟨i, a, huses, hcall, by simpa [FunctionTable.contains] using hname, ?_⟩
  intro j hj hused
  by_contra hunknown
  have hlt : j < r.graph.size := hused.le.trans_lt r.root.2
  obtain ⟨l, other, b, hl, hother, hnone⟩ := Graph.exists_call_of_not_known ⟨j, hlt⟩ hunknown
  have hknown := hfirst l other b (hl.le.trans_lt hj) (hused.trans hl) hother
  rw [FunctionTable.contains, hnone] at hknown
  cases hknown

/-- Evaluation reads no place of its table before it is filled. It gives the value of the tree if
every call that the root is made of has an entry, and otherwise it names the function of the first
call that has none. Nodes that the root is not made of do not matter: they can be other nodes, or
not be there, or be more. -/
theorem evaluation_is_recursive (r : RootedGraph) (t : FunctionTable) (x y : Double) :
    r.evaluateChecked t x y = some (r.evaluate t x y) ∧
      ((∀ i name a, r.graph.Uses r.root i → r.graph.nodes[i]? = some (.call name a) →
          t.contains name = true) →
        ∃ v, r.tree.value t x y = some v ∧ r.evaluate t x y = .ok v) ∧
      (∀ i name a, r.graph.Uses r.root i → r.graph.nodes[i]? = some (.call name a) →
        t.contains name = false →
        (∀ j other b, j < i → r.graph.Uses r.root j →
          r.graph.nodes[j]? = some (.call other b) → t.contains other = true) →
        r.evaluate t x y = .error ⟨name⟩) ∧
      ∀ r' place, r.Embeds r' place → r'.evaluate t x y = r.evaluate t x y := by
  refine ⟨r.evaluateChecked_eq t x y, fun hall ↦ ?_, ?_, fun r' place h ↦ h.evaluate_eq t x y⟩
  · obtain ⟨v, hv⟩ := exists_evaluate_iff.2 hall
    exact ⟨v, evaluate_eq_ok_iff.1 hv, hv⟩
  · intro i name a huses hcall hname hfirst
    exact evaluate_eq_error_iff.2 (firstUnknown_of_calls huses hcall hname hfirst)

end RootedGraph

end Formula
