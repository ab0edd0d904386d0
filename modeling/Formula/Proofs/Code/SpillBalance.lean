import Formula.Expr.Parser
import Formula.Proofs.Code.Accounts
import Formula.Proofs.Code.Registers

/-!
# What the depth of calls costs

With the depth of calls, an operation with calls on the left only computes its left operand first.
The value of the right operand then does not have to outlast these calls on the stack, which saves a
spill. But the value of the left operand holds a register while the right one is computed, so the
operations there that would have had the last register go on the stack. These are the ones that five
left operands lead to. The two effects are all there is (`Tree.spills_balance`), and either can
outweigh the other.
-/

namespace Formula

namespace Tree

/-- How many values go on the stack if `d` registers are in use before, as far as there are that
many. -/
def spills (useDepth : Bool) : Tree → (d : Nat) → Nat
  | const _, _ | var _, _ => 0
  | bin _ l r, d =>
    if useDepth && (l.hasCall && !r.hasCall) then
      l.spills useDepth d + (decide (6 ≤ d)).toNat + r.spills useDepth (d + 1)
    else if l.hasCall then r.spills useDepth d + 1 + l.spills useDepth d
    else r.spills useDepth d + (decide (6 ≤ d)).toNat + l.spills useDepth (d + 1)
  | call _ a, d => a.spills useDepth d

/-- An operation with calls on the left only. -/
def callsOnLeftOnly : Tree → Bool
  | bin _ l r => l.hasCall && !r.hasCall
  | _ => false

/-- How many operations find the last register taken because the left operand came first. -/
def crowded : Tree → Nat
  | bin _ l r => if l.hasCall && !r.hasCall then r.leftDepths.count 5 else 0
  | _ => 0

def crowding (e : Tree) : Nat := (e.parts.map crowded).sum

@[simp] theorem crowding_const (v : Double) : (const v).crowding = 0 := rfl

@[simp] theorem crowding_var (v : Var) : (var v).crowding = 0 := rfl

@[simp] theorem crowding_bin (op : BinOp) (l r : Tree) :
    (bin op l r).crowding = (bin op l r).crowded + (l.crowding + r.crowding) := by
  simp [crowding, parts]

@[simp] theorem crowding_call (name : String) (a : Tree) :
    (call name a).crowding = a.crowding := by
  simp [crowding, parts, crowded]

variable {e : Tree}

theorem crowding_of_hasCall_eq_false (h : e.hasCall = false) : e.crowding = 0 := by
  induction e with
  | const v => rfl
  | var v => rfl
  | bin op l r ihl ihr =>
      obtain ⟨hl, hr⟩ := Bool.or_eq_false_iff.1 h
      simp [crowded, hl, ihl hl, ihr hr]
  | call name a _ => cases h

theorem count_callsOnLeftOnly_of_hasCall_eq_false (h : e.hasCall = false) :
    e.count callsOnLeftOnly = 0 := by
  induction e with
  | const v => rfl
  | var v => rfl
  | bin op l r ihl ihr =>
      obtain ⟨hl, hr⟩ := Bool.or_eq_false_iff.1 h
      simp [callsOnLeftOnly, hl, ihl hl, ihr hr]
  | call name a _ => cases h

section Order

variable {op : BinOp} {l r : Tree}

theorem spills_of_no_calls_on_left (useDepth : Bool) (hl : l.hasCall = false) (d : Nat) :
    (bin op l r).spills useDepth d =
      r.spills useDepth d + (decide (6 ≤ d)).toNat + l.spills useDepth (d + 1) := by
  simp [spills, hl]

theorem spills_of_calls_on_both_sides (useDepth : Bool) (hl : l.hasCall = true)
    (hr : r.hasCall = true) (d : Nat) :
    (bin op l r).spills useDepth d = r.spills useDepth d + 1 + l.spills useDepth d := by
  simp [spills, hl, hr]

theorem spills_true_of_calls_on_left_only (hl : l.hasCall = true) (hr : r.hasCall = false)
    (d : Nat) : (bin op l r).spills true d =
      l.spills true d + (decide (6 ≤ d)).toNat + r.spills true (d + 1) := by
  simp [spills, hl, hr]

theorem spills_false_of_calls_on_left (hl : l.hasCall = true) (d : Nat) :
    (bin op l r).spills false d = r.spills false d + 1 + l.spills false d := by
  simp [spills, hl]

end Order

/-- Without calls, the operations go on the stack that too many left operands lead to. -/
theorem spills_of_hasCall_eq_false (useDepth : Bool) (h : e.hasCall = false) (d : Nat) :
    e.spills useDepth d = e.leftDepths.countP (6 ≤ d + ·) := by
  induction e generalizing d with
  | const v => rfl
  | var v => rfl
  | bin op l r ihl ihr =>
      obtain ⟨hl, hr⟩ := Bool.or_eq_false_iff.1 h
      have hshift : (l.leftDepths.map (· + 1)).countP (6 ≤ d + ·) =
          l.leftDepths.countP (6 ≤ d + 1 + ·) := by
        rw [List.countP_map]
        congr 1
        funext k
        simp [Nat.add_assoc, Nat.add_comm 1]
      rw [spills_of_no_calls_on_left useDepth hl, ihl hl, ihr hr, leftDepths, List.countP_append,
        countP_cons_toNat, hshift, Nat.add_assoc]
      rfl
  | call name a _ => cases h

/-- One more register in use leaves none for the operations that five left operands lead to. -/
theorem spills_one_of_hasCall_eq_false (useDepth useDepth' : Bool) (h : e.hasCall = false) :
    e.spills useDepth 1 = e.spills useDepth' 0 + e.leftDepths.count 5 := by
  rw [spills_of_hasCall_eq_false _ h, spills_of_hasCall_eq_false _ h]
  induction e.leftDepths with
  | nil => rfl
  | cons d ds ih =>
      have hd : (decide (6 ≤ 1 + d)).toNat = (decide (6 ≤ 0 + d)).toNat + (d == 5).toNat := by
        rcases lt_trichotomy d 5 with hd | rfl | hd
        · have hlow : ¬ 6 ≤ d := by omega
          have hlow' : ¬ 6 ≤ 1 + d := by omega
          simp [hlow, hlow', beq_eq_false_iff_ne.2 hd.ne]
        · rfl
        · have hhigh : 6 ≤ d := by omega
          have hhigh' : 6 ≤ 1 + d := by omega
          simp [hhigh, hhigh', beq_eq_false_iff_ne.2 hd.ne']
      rw [countP_cons_toNat, countP_cons_toNat, List.count, countP_cons_toNat, ih, hd, List.count]
      omega

/-- The depth of calls saves a spill where there are calls on the left only, and costs one for each
operation that is crowded out. -/
theorem spills_balance (e : Tree) :
    e.spills true 0 + e.count callsOnLeftOnly = e.spills false 0 + e.crowding := by
  induction e with
  | const v => rfl
  | var v => rfl
  | call name a ih => simpa [spills, callsOnLeftOnly] using ih
  | bin op l r ihl ihr =>
      rw [count_bin, crowding_bin]
      -- The two orders differ only if there are calls on the left only.
      cases hl : l.hasCall with
      | false =>
          have hself : (bin op l r).callsOnLeftOnly = false ∧ (bin op l r).crowded = 0 := by
            simp [callsOnLeftOnly, crowded, hl]
          have hsame : l.spills true 1 = l.spills false 1 := by
            rw [spills_of_hasCall_eq_false _ hl, spills_of_hasCall_eq_false _ hl]
          rw [spills_of_no_calls_on_left true hl, spills_of_no_calls_on_left false hl, hself.1,
            hself.2, count_callsOnLeftOnly_of_hasCall_eq_false hl, crowding_of_hasCall_eq_false hl,
            Bool.toNat_false, Nat.zero_add 1, hsame]
          omega
      | true =>
          cases hr : r.hasCall with
          | true =>
              have hself : (bin op l r).callsOnLeftOnly = false ∧ (bin op l r).crowded = 0 := by
                simp [callsOnLeftOnly, crowded, hr]
              rw [spills_of_calls_on_both_sides true hl hr,
                spills_of_calls_on_both_sides false hl hr, hself.1, hself.2, Bool.toNat_false]
              omega
          | false =>
              have hself : (bin op l r).callsOnLeftOnly = true ∧
                  (bin op l r).crowded = r.leftDepths.count 5 := by
                simp [callsOnLeftOnly, crowded, hl, hr]
              have hfree : (decide (6 ≤ 0)).toNat = 0 := rfl
              rw [spills_true_of_calls_on_left_only hl hr, spills_false_of_calls_on_left hl,
                hself.1, hself.2, count_callsOnLeftOnly_of_hasCall_eq_false hr,
                crowding_of_hasCall_eq_false hr, Bool.toNat_true, hfree, Nat.zero_add 1,
                spills_one_of_hasCall_eq_false true false hr]
              omega

end Tree

namespace Code

/-- The plan of a formula: the left operand comes first if there are calls on the left only, where
their depth counts. -/
def Plan.ofTree (useDepth : Bool) : Tree → Plan
  | .const v => const v
  | .var v => var v
  | .bin op l r =>
    if useDepth && (l.hasCall && !r.hasCall) then
      bin op true false (ofTree useDepth l) (ofTree useDepth r)
    else bin op false l.hasCall (ofTree useDepth r) (ofTree useDepth l)
  | .call name a => call name (ofTree useDepth a)

theorem plan_run_eq (g : Graph) (useDepth : Bool) (i : Fin g.size) :
    g.plan (CallAnalysis.run g useDepth) i = Plan.ofTree useDepth (g.unfold i) := by
  induction i using Graph.node_induction with
  | const i v h => rw [Graph.plan_const h, Graph.unfold_const h, Plan.ofTree]
  | var i v h => rw [Graph.plan_var h, Graph.unfold_var h, Plan.ofTree]
  | bin i op l r h ihl ihr =>
      rw [Graph.plan_bin h, Graph.unfold_bin h, Plan.ofTree, Tree.leftFirst_run, Tree.leftFirst_eq,
        CallAnalysis.hasCall_run, CallAnalysis.hasCall_run, ihl, ihr]
      split
      · next hfirst =>
          have hr : (g.unfold r).hasCall = false := by simp_all
          rw [hr]
      · rfl
  | call i name arg h ih => rw [Graph.plan_call h, Graph.unfold_call h, Plan.ofTree, ih]

/-- The values that a plan parks on the stack. -/
def Plan.spills (P : Plan) (p : Pool) : Nat := (P.handles p).countP (!·.isRegister)

theorem Plan.spills_bin (op : BinOp) (leftFirst force : Bool) (P Q : Plan) (p : Pool) :
    (bin op leftFirst force P Q).spills p =
      P.spills p + ((!(p.stash force).1.isRegister).toNat + Q.spills (p.stash force).2) := by
  rw [spills, handles, List.countP_append, countP_cons_toNat]
  rfl

theorem Plan.spills_ofTree (useDepth : Bool) (e : Tree) {p : Pool} {d : Nat}
    (hfilled : p.Filled (min d 6)) (hon : p.enabled = true) :
    (ofTree useDepth e).spills p = e.spills useDepth d := by
  induction e generalizing p d with
  | const v => rfl
  | var v => rfl
  | bin op l r ihl ihr =>
      obtain ⟨hhandle, hfilled', hon'⟩ := hfilled.stash hon
      have hplace : (!(p.stash false).1.isRegister).toNat = (decide (6 ≤ d)).toNat := by
        rw [hhandle, Handle.isRegister_atDepth]
        by_cases hd : d ≤ 5
        · simp [hd, show ¬ 6 ≤ d by omega]
        · simp [hd, show 6 ≤ d by omega]
      have hforced : p.stash true = (.spill, p.spilled) := rfl
      rw [ofTree, Tree.spills]
      split
      · rw [spills_bin, hplace, ihl hfilled hon, ihr hfilled' hon']
        omega
      · cases hl : l.hasCall with
        | true =>
            rw [spills_bin, ihr hfilled hon, hforced, @ihl p.spilled d (hfilled.of_used_eq rfl) hon]
            simp [Handle.isRegister, Nat.add_assoc]
        | false =>
            rw [spills_bin, hplace, ihr hfilled hon, ihl hfilled' hon']
            simp [Nat.add_assoc]
  | call name a ih => exact ih hfilled hon

theorem exists_ok_of_any {ε α : Type} {x : Except ε α} {p : α → Bool}
    (h : x.toOption.any p = true) : ∃ a, x = .ok a ∧ p a = true := by
  cases x with
  | error f => cases h
  | ok a => exact ⟨a, rfl, h⟩

section

variable {r : RootedGraph} {t : FunctionTable} {s : Switches} {asm : Assembly}

theorem planOf_eq (r : RootedGraph) (s : Switches) : planOf r s = .ofTree s.useCallDepth r.tree :=
  plan_run_eq r.graph _ r.root

theorem stackSpills_eq_spills_ofTree (h : (assemble r t s).1 = .ok asm) :
    asm.stats.stackSpills =
      (Plan.ofTree s.useCallDepth r.tree).spills (.new s.useRegisters) := by
  rw [stats_of_assemble h, Stats.stackSpills_foldl_park, Nat.zero_add, planOf_eq]
  rfl

theorem stackSpills_of_assemble (h : (assemble r t s).1 = .ok asm)
    (hon : s.useRegisters = true) : asm.stats.stackSpills = r.tree.spills s.useCallDepth 0 := by
  rw [stackSpills_eq_spills_ofTree h]
  exact Plan.spills_ofTree _ _ (Pool.filled_new _) hon

theorem stackSpills_of_assemble_of_off (h : (assemble r t s).1 = .ok asm)
    (hoff : s.useRegisters = false) : asm.stats.stackSpills = r.tree.count Tree.isBin := by
  rw [← parked_of_assemble h, (unregistered_of_assemble h hoff).1, Nat.zero_add]

/-- The depth of calls can cost spills. Without registers it makes no difference. With them, each
operation with calls on the left only saves one spill, and costs one for each operation in its right
operand that exactly five left operands lead to. -/
theorem depth_trades_spills (h : (assemble r t s).1 = .ok asm) :
    ∃ on off, (assemble r t { s with useCallDepth := true }).1 = .ok on ∧
      (assemble r t { s with useCallDepth := false }).1 = .ok off ∧
      (s.useRegisters = false → on.stats.stackSpills = off.stats.stackSpills) ∧
      (s.useRegisters = true →
        on.stats.stackSpills + r.tree.count Tree.callsOnLeftOnly =
          off.stats.stackSpills + r.tree.crowding) ∧
      (on.stats.stackSpills ≤ off.stats.stackSpills ↔
        s.useRegisters = false ∨ r.tree.crowding ≤ r.tree.count Tree.callsOnLeftOnly) := by
  have hknown := known_of_assemble h
  obtain ⟨on, hon, -⟩ := assemble_of_known { s with useCallDepth := true } hknown
  obtain ⟨off, hoff, -⟩ := assemble_of_known { s with useCallDepth := false } hknown
  refine ⟨on, off, hon, hoff, ?_⟩
  cases hregs : s.useRegisters with
  | false =>
      have hsame : on.stats.stackSpills = off.stats.stackSpills := by
        rw [stackSpills_of_assemble_of_off hon hregs, stackSpills_of_assemble_of_off hoff hregs]
      exact ⟨fun _ ↦ hsame, nofun, iff_of_true hsame.le (.inl rfl)⟩
  | true =>
      have hbalance : on.stats.stackSpills + r.tree.count Tree.callsOnLeftOnly =
          off.stats.stackSpills + r.tree.crowding := by
        rw [stackSpills_of_assemble hon hregs, stackSpills_of_assemble hoff hregs]
        exact r.tree.spills_balance
      refine ⟨nofun, fun _ ↦ hbalance, ?_⟩
      rw [or_iff_right Bool.true_eq_false.mp]
      omega

end

/-- The two sums with calls on the left only save two spills, and the inner one crowds out two
operations of the chain on its right. -/
theorem depth_trades_spills_of_chain :
    let r : RootedGraph :=
      ⟨⟨#[.var .x, .call "sqrt" 0, .bin .add 0 0, .bin .add 0 2, .bin .add 3 0, .bin .add 4 0,
        .bin .add 5 0, .bin .add 6 0, .bin .add 7 0, .bin .add 1 8, .bin .add 9 0], by decide⟩,
        ⟨10, by decide⟩⟩
    (∃ asm, (assemble r .standard {}).1 = .ok asm) ∧
      ∃ on off, (assemble r .standard {}).1 = .ok on ∧
        (assemble r .standard { useCallDepth := false }).1 = .ok off ∧
        on.stats.stackSpills + 2 = off.stats.stackSpills + 2 := by
  intro r
  have hknown : r.tree.Known .standard := Tree.firstUnknown?_eq_none_iff.1 (by decide)
  obtain ⟨asm, hasm, -⟩ := assemble_of_known {} hknown
  obtain ⟨on, off, hon, hoff, -, hbalance, -⟩ := depth_trades_spills hasm
  have hcounts : r.tree.count Tree.callsOnLeftOnly = 2 ∧ r.tree.crowding = 2 := by decide
  rw [hcounts.1, hcounts.2] at hbalance
  exact ⟨⟨asm, hasm⟩, on, off, hon, hoff, hbalance rfl⟩

/-- One spill is saved and two are made. -/
theorem depth_can_cost_spills :
    ∃ e on off, Expr.parse "sqrt(x)+(x+(x+x)+x+x+x+x+x)" = .ok e ∧
      (assemble e.toGraph .standard {}).1 = .ok on ∧
      (assemble e.toGraph .standard { useCallDepth := false }).1 = .ok off ∧
      on.stats.stackSpills = 2 ∧ off.stats.stackSpills = 1 := by
  have hspills : (Expr.parse "sqrt(x)+(x+(x+x)+x+x+x+x+x)").toOption.any (fun e ↦
      (assemble e.toGraph .standard {}).1.toOption.any (·.stats.stackSpills = 2) &&
      (assemble e.toGraph .standard { useCallDepth := false }).1.toOption.any
        (·.stats.stackSpills = 1)) = true := by
    decide +kernel
  obtain ⟨e, hparse, hspills⟩ := exists_ok_of_any hspills
  rw [Bool.and_eq_true] at hspills
  obtain ⟨on, hon, htwo⟩ := exists_ok_of_any hspills.1
  obtain ⟨off, hoff, hone⟩ := exists_ok_of_any hspills.2
  exact ⟨e, on, off, hparse, hon, hoff, of_decide_eq_true htwo, of_decide_eq_true hone⟩

end Code

end Formula
