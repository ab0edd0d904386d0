import Formula.Graph.Reachable
import Formula.Proofs.Graph.Basic

/-!
# What a node is made of

`Graph.Uses` is the chain of operands from a node down to another, `Graph.Path` such a chain with
its nodes listed. The sweep goes through the nodes from the last one down; when it has passed a
node, the marks from there on are settled. So the marks at its end are those of the nodes that the
root is made of (`Graph.live_reachable_iff`).
-/

namespace Formula.Graph

variable {g : Graph} {live : Array Bool} {i c : Nat}

/-- The node at `c` is an operand of the node at `i`. -/
def Child (g : Graph) (i c : Nat) : Prop := ∃ n, g.nodes[i]? = some n ∧ c ∈ n.children

/-- The node at `i` is made of the node at `j`. -/
def Uses (g : Graph) : (i j : Nat) → Prop := Relation.ReflTransGen g.Child

/-- The nodes on a way down from a node, each an operand of the one before it. -/
inductive Path (g : Graph) : Nat → List Nat → Prop
  | here (i : Nat) : Path g i [i]
  | down {i c : Nat} {path : List Nat} (hchild : g.Child i c) (hpath : Path g c path) :
    Path g i (i :: path)

theorem Child.lt (h : g.Child i c) : c < i := by
  obtain ⟨n, hn, hc⟩ := h
  obtain ⟨hi, rfl⟩ := Array.getElem?_eq_some_iff.1 hn
  exact g.below i hi c hc

theorem Uses.le {j : Nat} (h : g.Uses i j) : j ≤ i := by
  induction h with
  | refl => exact le_rfl
  | tail _ hchild ih => exact hchild.lt.le.trans ih

def Live (live : Array Bool) (i : Nat) : Prop := live.getD i false = true

theorem live_iff : Live live i ↔ live[i]? = some true := by
  rw [Live, Array.getD_eq_getD_getElem?]
  cases live[i]? <;> simp

theorem Live.lt_size (h : Live live i) : i < live.size := by
  by_contra hi
  simp [Live, Array.getD_eq_getD_getElem?, Array.getElem?_eq_none (not_lt.1 hi)] at h

theorem live_setIfInBounds :
    Live (live.setIfInBounds c true) i ↔ Live live i ∨ i = c ∧ i < live.size := by
  simp only [Live, Array.getD_eq_getD_getElem?, Array.getElem?_setIfInBounds]
  grind

theorem live_foldl_setIfInBounds (cs : List Nat) :
    Live (cs.foldl (fun live c ↦ live.setIfInBounds c true) live) i ↔
      Live live i ∨ i ∈ cs ∧ i < live.size := by
  induction cs generalizing live with
  | nil => simp
  | cons c cs ih =>
      rw [List.foldl_cons, ih, live_setIfInBounds, Array.size_setIfInBounds, List.mem_cons]
      tauto

theorem live_mark (n : Node Nat) :
    Live (mark live n) i ↔ Live live i ∨ i ∈ n.children ∧ i < live.size :=
  live_foldl_setIfInBounds n.children

theorem size_mark (live : Array Bool) (n : Node Nat) : (mark live n).size = live.size := by
  rw [mark]
  induction n.children generalizing live with
  | nil => rfl
  | cons c cs ih => rw [List.foldl_cons, ih, Array.size_setIfInBounds]

/-- What each turn of the sweep keeps holds at its end. -/
theorem sweep_induction {motive : Nat → Array Bool → Prop}
    (visit : ∀ i live n, motive (i + 1) live → Live live i → g.nodes[i]? = some n →
      motive i (mark live n))
    (skip : ∀ i live, motive (i + 1) live → (Live live i → g.nodes[i]? = none) → motive i live)
    {k : Nat} (start : motive k live) : motive 0 (g.sweep k live) := by
  induction k generalizing live with
  | zero => exact start
  | succ k ih =>
      rw [sweep]
      split
      · next n hlive hn => exact ih (visit k live n start hlive hn)
      · next hstop =>
          refine ih (skip k live start fun hlive ↦ ?_)
          cases hn : g.nodes[k]? with
          | none => rfl
          | some n => exact absurd hn (hstop n hlive)

theorem size_sweep (g : Graph) (k : Nat) (live : Array Bool) : (g.sweep k live).size = live.size :=
  sweep_induction (motive := fun _ l ↦ l.size = live.size)
    (fun _ l n h _ _ ↦ (size_mark l n).trans h) (fun _ _ h _ ↦ h) rfl

theorem Live.sweep (h : Live live i) (k : Nat) : Live (g.sweep k live) i :=
  sweep_induction (motive := fun _ l ↦ Live l i) (fun _ _ n h _ _ ↦ (live_mark n).2 (.inl h))
    (fun _ _ h _ ↦ h) h

/-- The sweep marks only what a marked node is made of. -/
theorem exists_live_of_live_sweep {k : Nat} (h : Live (g.sweep k live) i) :
    ∃ j, Live live j ∧ g.Uses j i := by
  refine sweep_induction (motive := fun _ l ↦ ∀ i, Live l i → ∃ j, Live live j ∧ g.Uses j i)
    ?_ (fun _ _ h _ ↦ h) (fun i hi ↦ ⟨i, hi, .refl⟩) i h
  intro k l n hl hk hn i hi
  rcases (live_mark n).1 hi with hi | ⟨hi, -⟩
  · exact hl i hi
  · obtain ⟨j, hj, huses⟩ := hl k hk
    exact ⟨j, hj, huses.tail ⟨n, hn, hi⟩⟩

/-- From `k` on, the operands of what is marked are marked. -/
def ClosedFrom (g : Graph) (k : Nat) (live : Array Bool) : Prop :=
  ∀ i c, k ≤ i → Live live i → g.Child i c → Live live c

theorem closedFrom_sweep {k : Nat} (h : g.ClosedFrom k live) :
    g.ClosedFrom 0 (g.sweep k live) := by
  refine sweep_induction (motive := g.ClosedFrom) ?_ ?_ h
  · intro k l n hl hk hn i c hi hlive hchild
    -- The marks that are set now are below `k`, so the ones from `k` on are the old ones.
    have hold : Live l i := by
      rcases (live_mark n).1 hlive with hold | ⟨hmem, -⟩
      · exact hold
      · have := Child.lt ⟨n, hn, hmem⟩
        omega
    rcases hi.eq_or_lt with rfl | hlt
    · obtain ⟨n', hn', hc⟩ := hchild
      rw [hn] at hn'
      cases hn'
      exact (live_mark n).2 (.inr ⟨hc, (Child.lt ⟨n, hn, hc⟩).trans hold.lt_size⟩)
    · exact (live_mark n).2 (.inl (hl i c hlt hold hchild))
  · intro k l hl hstop i c hi hlive hchild
    rcases hi.eq_or_lt with rfl | hlt
    · obtain ⟨n, hn, -⟩ := hchild
      rw [hstop hlive] at hn
      cases hn
    · exact hl i c hlt hlive hchild

/-- Where the marks from `k` on are in order, the sweep below `k` marks all that a marked node is
made of. -/
theorem live_sweep_iff {k : Nat} (h : g.ClosedFrom k live) :
    Live (g.sweep k live) i ↔ ∃ j, Live live j ∧ g.Uses j i := by
  refine ⟨exists_live_of_live_sweep, ?_⟩
  rintro ⟨j, hj, huses⟩
  induction huses with
  | refl => exact hj.sweep k
  | tail _ hchild ih => exact closedFrom_sweep h _ _ (Nat.zero_le _) ih hchild

/-- The marks that the sweep starts from: the root's alone. -/
theorem live_start (root : Nat) :
    Live ((Array.replicate (root + 1) false).setIfInBounds root true) i ↔ i = root := by
  have hnone : ¬ Live (Array.replicate (root + 1) false) i := by
    intro h
    have hi : i < root + 1 := by simpa using h.lt_size
    simp [Live, Array.getD_eq_getD_getElem?, hi] at h
  rw [live_setIfInBounds, Array.size_replicate]
  constructor
  · rintro (h | ⟨h, -⟩)
    · exact absurd h hnone
    · exact h
  · rintro rfl
    exact .inr ⟨rfl, Nat.lt_succ_self i⟩

theorem size_reachable (g : Graph) (root : Fin g.size) : (g.reachable root).size = root + 1 := by
  rw [reachable, size_sweep, Array.size_setIfInBounds, Array.size_replicate]

/-- The nodes that are marked are those that the root is made of. -/
theorem live_reachable_iff (root : Fin g.size) : Live (g.reachable root) i ↔ g.Uses root i := by
  have hclosed : g.ClosedFrom (root + 1)
      ((Array.replicate (root + 1) false).setIfInBounds root true) := by
    intro i c hi hlive _
    have hroot := (live_start _).1 hlive
    omega
  rw [reachable, live_sweep_iff hclosed]
  constructor
  · rintro ⟨j, hj, huses⟩
    rwa [(live_start _).1 hj] at huses
  · intro huses
    exact ⟨root, (live_start _).2 rfl, huses⟩

theorem size_marked (g : Graph) (root : Fin g.size) : (g.marked root).size = root + 1 := by
  have hroot : root.val < g.nodes.size := root.2
  rw [marked, Array.size_zip, size_reachable]
  omega

/-- A node is listed with the mark that tells whether the root is made of it. -/
theorem getElem?_marked {root : Fin g.size} {n : Node Nat} {b : Bool}
    (h : (g.marked root)[i]? = some (n, b)) :
    g.nodes[i]? = some n ∧ (b = true ↔ g.Uses root i) := by
  rw [marked, Array.getElem?_zip_eq_some] at h
  refine ⟨h.1, ?_⟩
  rw [← live_reachable_iff, Live, Array.getD_eq_getD_getElem?, h.2, Option.getD_some]

/-- What each step of a pass through the listed nodes keeps holds at its end. -/
theorem foldl_marked {α : Type} {f : α → Node Nat × Bool → α} {root : Fin g.size}
    {motive : Nat → α → Prop}
    (step : ∀ i acc n b, motive i acc → g.nodes[i]? = some n → (b = true ↔ g.Uses root i) →
      motive (i + 1) (f acc (n, b)))
    {init : α} (start : motive 0 init) : motive (root + 1) ((g.marked root).foldl f init) := by
  rw [← g.size_marked root]
  refine Array.foldl_induction motive start fun i acc hacc ↦ ?_
  obtain ⟨hn, hb⟩ := getElem?_marked (Array.getElem?_eq_getElem i.2)
  exact step i acc _ _ hacc hn hb

/-- The same for a pass that can stop early, which it does at one of the steps. -/
theorem foldlM_marked {α ε : Type} {f : α → Node Nat × Bool → Except ε α} {root : Fin g.size}
    {motive : Nat → α → Prop} {stop : ε → Prop}
    (step : ∀ i acc n b, motive i acc → g.nodes[i]? = some n → (b = true ↔ g.Uses root i) →
      (∀ acc', f acc (n, b) = .ok acc' → motive (i + 1) acc') ∧
        ∀ e, f acc (n, b) = .error e → stop e)
    {init : α} (start : motive 0 init) :
    (∀ acc, (g.marked root).foldlM f init = .ok acc → motive (root + 1) acc) ∧
      ∀ e, (g.marked root).foldlM f init = .error e → stop e := by
  have hrun : ∀ (ahead behind : List (Node Nat × Bool)) (acc : α),
      (g.marked root).toList = behind ++ ahead → motive behind.length acc →
      (∀ acc', ahead.foldlM f acc = .ok acc' → motive (root + 1) acc') ∧
        ∀ e, ahead.foldlM f acc = .error e → stop e := by
    intro ahead
    induction ahead with
    | nil =>
        intro behind acc hlist hacc
        have hlen : behind.length = root + 1 := by
          rw [← g.size_marked root, ← Array.length_toList, hlist, List.append_nil]
        constructor
        · rintro acc' ⟨⟩
          exact hlen ▸ hacc
        · rintro e ⟨⟩
    | cons entry ahead ih =>
        intro behind acc hlist hacc
        obtain ⟨n, b⟩ := entry
        have hentry : (g.marked root)[behind.length]? = some (n, b) := by
          rw [← Array.getElem?_toList, hlist]
          simp
        obtain ⟨hn, hb⟩ := getElem?_marked hentry
        obtain ⟨hok, herr⟩ := step _ acc n b hacc hn hb
        rw [List.foldlM_cons]
        cases hf : f acc (n, b) with
        | error e =>
            constructor
            · rintro acc' ⟨⟩
            · rintro e' ⟨⟩
              exact herr e hf
        | ok acc' =>
            have hnext := ih (behind ++ [(n, b)]) acc' (by simp [hlist])
              (by simpa using hok acc' hf)
            exact hnext
  rw [← Array.foldlM_toList]
  exact hrun _ [] init rfl start

end Formula.Graph
