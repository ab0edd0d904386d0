import Formula.Proofs.Code.Scheduling
import Formula.Proofs.Code.SpillBalance

/-!
# What folding does to the size of the code

A constant in the place of an operation or a call takes fewer bytes. But where a call goes away, the
operations around it may take their operands in another order, keep a value in a register that was
on the stack, or run out of registers, and so other calls may find an odd number of values on the
stack, for which they are padded. `Tree.padded` counts these calls on the formula, and
`code_size_after_folding` says what the two effects come to. As long as no call goes away, folding
never makes the code longer.
-/

namespace Formula

namespace Tree

/-- The second formula is the first one with constants in the place of operations on constants, and
of calls on constants for which there is an entry. -/
inductive Folds (t : FunctionTable) : Tree → Tree → Prop
  | const (v : Double) : Folds t (const v) (const v)
  | var (v : Var) : Folds t (var v) (var v)
  | bin (op : BinOp) {l r l' r' : Tree} (hl : Folds t l l') (hr : Folds t r r') :
      Folds t (bin op l r) (bin op l' r')
  | call (name : String) {a a' : Tree} (ha : Folds t a a') : Folds t (call name a) (call name a')
  | binConst (op : BinOp) {l r : Tree} {a b : Double} (hl : Folds t l (const a))
      (hr : Folds t r (const b)) : Folds t (bin op l r) (const (op.apply a b))
  | callConst {name : String} {f : Native} {a : Tree} {v : Double}
      (hf : t.get? name = some f) (ha : Folds t a (const v)) :
      Folds t (call name a) (const (f.apply v))

theorem folds_fold (t : FunctionTable) (e : Tree) : Folds t e (e.fold t) := by
  induction e with
  | const v => exact .const v
  | var v => exact .var v
  | bin op l r ihl ihr =>
      rw [fold]
      rcases foldBin_cases op (l.fold t) (r.fold t) with ⟨a, b, ha, hb, hfold⟩ | ⟨-, hfold⟩
      · rw [hfold]
        exact .binConst op (ha ▸ ihl) (hb ▸ ihr)
      · rw [hfold]
        exact .bin op ihl ihr
  | call name a ih =>
      rw [fold]
      rcases foldCall_cases t name (a.fold t) with ⟨v, f, hv, hf, hfold⟩ | ⟨-, hfold⟩
      · rw [hfold]
        exact .callConst hf (hv ▸ ih)
      · rw [hfold]
        exact .call name ih

theorem count_isCall_eq_zero_iff {e : Tree} : e.count isCall = 0 ↔ e.hasCall = false := by
  induction e with
  | const v => exact iff_of_true rfl rfl
  | var v => exact iff_of_true rfl rfl
  | bin op l r ihl ihr => simp [hasCall, isCall, ihl, ihr]
  | call name a _ => simp [hasCall, isCall]

theorem hasCall_eq_of_count_isCall_eq {e f : Tree} (h : f.count isCall = e.count isCall) :
    f.hasCall = e.hasCall := by
  rw [Bool.eq_iff_iff, ← not_iff_not, Bool.not_eq_true, Bool.not_eq_true,
    ← count_isCall_eq_zero_iff, ← count_isCall_eq_zero_iff, h]

/-- An operation that computes its left operand first. -/
def startsLeft (useDepth : Bool) (e : Tree) : Bool := e.callsOnLeftOnly && useDepth

theorem startsLeft_bin (useDepth : Bool) (op : BinOp) (l r : Tree) :
    (bin op l r).startsLeft useDepth = (l.hasCall && !r.hasCall && useDepth) := rfl

/-- How many calls find an odd number of values on the stack, if there are `n` before. -/
def padded (useDepth : Bool) : Tree → (n : Nat) → Nat
  | const _, _ | var _, _ => 0
  | bin _ l r, n =>
    if useDepth && (l.hasCall && !r.hasCall) then l.padded useDepth n
    else r.padded useDepth n + l.padded useDepth (n + 1)
  | call _ a, n => a.padded useDepth n + (decide (n % 2 = 1)).toNat

section Folds

variable {t : FunctionTable} {e f : Tree}

theorem Folds.count_isVar (h : Folds t e f) : f.count isVar = e.count isVar := by
  induction h with
  | const v => rfl
  | var v => rfl
  | bin op _ _ ihl ihr => simp [isVar, ihl, ihr]
  | call name _ ih => simp [isVar, ih]
  | binConst op _ _ ihl ihr =>
      simp only [count_bin, count_const, isVar, Bool.toNat_false] at ihl ihr ⊢
      omega
  | callConst _ _ ih => simpa [isVar, eq_comm] using ih

/-- With each operation that is folded away, a constant goes. -/
theorem Folds.count_isConst (h : Folds t e f) :
    e.count isConst + f.count isBin = f.count isConst + e.count isBin := by
  induction h with
  | const v => rfl
  | var v => rfl
  | bin op _ _ ihl ihr =>
      simp only [count_bin, isConst, isBin, Bool.toNat_false, Bool.toNat_true]
      omega
  | call name _ ih => simpa [isConst, isBin] using ih
  | binConst op _ _ ihl ihr =>
      simp only [count_bin, count_const, isConst, isBin, Bool.toNat_false, Bool.toNat_true]
        at ihl ihr ⊢
      omega
  | callConst _ _ ih => simpa [isConst, isBin] using ih

theorem Folds.count_isCall_le (h : Folds t e f) : f.count isCall ≤ e.count isCall := by
  induction h with
  | const v => exact le_rfl
  | var v => exact le_rfl
  | bin op _ _ ihl ihr => simpa [isCall] using Nat.add_le_add ihl ihr
  | call name _ ih => simpa [isCall] using ih
  | binConst | callConst => exact Nat.zero_le _

theorem Folds.hasCall_eq_false (h : Folds t e f) (he : e.hasCall = false) : f.hasCall = false := by
  rw [← count_isCall_eq_zero_iff] at he ⊢
  exact Nat.eq_zero_of_le_zero (he ▸ h.count_isCall_le)

theorem Folds.toNat_hasCall_le (h : Folds t e f) : f.hasCall.toNat ≤ e.hasCall.toNat := by
  cases he : e.hasCall with
  | true => exact Bool.toNat_le f.hasCall
  | false => rw [h.hasCall_eq_false he]

theorem Folds.count_mustSpill_le (h : Folds t e f) :
    f.count (mustSpill false) ≤ e.count (mustSpill false) := by
  induction h with
  | const v => exact le_rfl
  | var v => exact le_rfl
  | bin op hl _ ihl ihr =>
      simpa [mustSpill] using Nat.add_le_add hl.toNat_hasCall_le (Nat.add_le_add ihl ihr)
  | call name _ ih => simpa [mustSpill] using ih
  | binConst | callConst => exact Nat.zero_le _

theorem count_startsLeft_of_hasCall_eq_false (useDepth : Bool) (h : e.hasCall = false) :
    e.count (startsLeft useDepth) = 0 := by
  apply Nat.eq_zero_of_le_zero
  rw [← count_callsOnLeftOnly_of_hasCall_eq_false h]
  exact count_mono (fun _ hleft ↦ (Bool.and_eq_true_iff.1 hleft).1) e

/-- Where an operation is left with calls on the left only, the calls on its right went away. -/
theorem Folds.toNat_startsLeft_add_le {l r l' r' : Tree} (op : BinOp) (useDepth : Bool)
    (hl : Folds t l l') (hr : r'.count (startsLeft useDepth) + r'.count isCall ≤
      r.count (startsLeft useDepth) + r.count isCall) :
    ((Tree.bin op l' r').startsLeft useDepth).toNat +
        (r'.count (startsLeft useDepth) + r'.count isCall) ≤
      ((Tree.bin op l r).startsLeft useDepth).toNat +
        (r.count (startsLeft useDepth) + r.count isCall) := by
  rw [startsLeft_bin, startsLeft_bin]
  cases hr' : r'.hasCall with
  | true =>
      rw [Bool.not_true, Bool.and_false, Bool.false_and, Bool.toNat_false]
      omega
  | false =>
      have hleft : (l'.hasCall && useDepth).toNat ≤ (l.hasCall && useDepth).toNat := by
        cases useDepth <;> simp [hl.toNat_hasCall_le]
      rw [count_startsLeft_of_hasCall_eq_false _ hr', count_isCall_eq_zero_iff.2 hr',
        Bool.not_false, Bool.and_true]
      cases hcall : r.hasCall with
      | true =>
          have hsome : r.count isCall ≠ 0 := by simp [count_isCall_eq_zero_iff, hcall]
          have hone := Bool.toNat_le (l'.hasCall && useDepth)
          omega
      | false =>
          rw [Bool.not_false, Bool.and_true]
          omega

theorem Folds.count_startsLeft_le (h : Folds t e f) (useDepth : Bool) :
    f.count (startsLeft useDepth) + f.count isCall ≤
      e.count (startsLeft useDepth) + e.count isCall := by
  induction h with
  | const v => exact le_rfl
  | var v => exact le_rfl
  | bin op hl hr ihl ihr =>
      have hself := toNat_startsLeft_add_le op useDepth hl ihr
      rw [count_bin, count_bin, count_bin, count_bin]
      simp only [isCall, Bool.toNat_false]
      omega
  | call name _ ih => simpa [startsLeft, callsOnLeftOnly, isCall, Nat.add_left_comm] using ih
  | binConst | callConst => exact Nat.zero_le _

theorem padded_of_hasCall_eq_false (useDepth : Bool) (h : e.hasCall = false) (n : Nat) :
    e.padded useDepth n = 0 := by
  induction e generalizing n with
  | const v => rfl
  | var v => rfl
  | bin op l r ihl ihr =>
      obtain ⟨hl, hr⟩ := Bool.or_eq_false_iff.1 h
      simp [padded, hl, ihl hl, ihr hr]
  | call name a _ => cases h

theorem Folds.padded_le (h : Folds t e f) (n : Nat) : f.padded false n ≤ e.padded false n := by
  induction h generalizing n with
  | const v => exact le_rfl
  | var v => exact le_rfl
  | bin op _ _ ihl ihr => simpa [padded] using Nat.add_le_add (ihr n) (ihl (n + 1))
  | call name _ ih => simpa [padded] using ih n
  | binConst | callConst => exact Nat.zero_le _

/-- Where no call goes away, the operations that do are on constants, which changes no order. -/
theorem Folds.same_order (h : Folds t e f) (hcalls : f.count isCall = e.count isCall)
    (useDepth : Bool) :
    f.count (startsLeft useDepth) = e.count (startsLeft useDepth) ∧
      (∀ n, f.padded useDepth n = e.padded useDepth n) ∧
      ∀ d, f.spills useDepth d ≤ e.spills useDepth d := by
  induction h with
  | const v => exact ⟨rfl, fun _ ↦ rfl, fun _ ↦ le_rfl⟩
  | var v => exact ⟨rfl, fun _ ↦ rfl, fun _ ↦ le_rfl⟩
  | @bin op l r l' r' hl hr ihl ihr =>
      have hsum : l'.count isCall + r'.count isCall = l.count isCall + r.count isCall := by
        simpa [isCall] using hcalls
      have hle := hl.count_isCall_le
      have hle' := hr.count_isCall_le
      have hcl : l'.count isCall = l.count isCall := by omega
      have hcr : r'.count isCall = r.count isCall := by omega
      have hsl : l'.hasCall = l.hasCall := hasCall_eq_of_count_isCall_eq hcl
      have hsr : r'.hasCall = r.hasCall := hasCall_eq_of_count_isCall_eq hcr
      obtain ⟨hleftl, hpadl, hspilll⟩ := ihl hcl
      obtain ⟨hleftr, hpadr, hspillr⟩ := ihr hcr
      refine ⟨?_, fun n ↦ ?_, fun d ↦ ?_⟩
      · simp only [count_bin, startsLeft, callsOnLeftOnly, hsl, hsr] at hleftl hleftr ⊢
        rw [hleftl, hleftr]
      · rw [padded, padded, hsl, hsr, hpadl, hpadl, hpadr]
      · have hnow := Nat.add_le_add (hspilll d) (hspillr d)
        have hlater := Nat.add_le_add (hspilll (d + 1)) (hspillr d)
        have hlater' := Nat.add_le_add (hspilll d) (hspillr (d + 1))
        rw [spills, spills, hsl, hsr]
        split_ifs <;> omega
  | call name _ ih =>
      obtain ⟨hleft, hpad, hspill⟩ := ih (by simpa [isCall] using hcalls)
      refine ⟨by simpa [startsLeft, callsOnLeftOnly] using hleft, fun n ↦ ?_, hspill⟩
      rw [padded, padded, hpad]
  | binConst =>
      have hfree := count_isCall_eq_zero_iff.1 hcalls.symm
      exact ⟨(count_startsLeft_of_hasCall_eq_false _ hfree).symm,
        fun n ↦ (padded_of_hasCall_eq_false _ hfree n).symm, fun _ ↦ Nat.zero_le _⟩
  | callConst =>
      simp only [count_const, count_call, isCall, Bool.toNat_false, Bool.toNat_true] at hcalls
      omega

end Folds

/-- An operation with calls on the left spills by force, or starts with its left operand. -/
theorem count_mustSpill_add (useDepth : Bool) (e : Tree) :
    e.count (mustSpill useDepth) + e.count (startsLeft useDepth) = e.count (mustSpill false) := by
  induction e with
  | const v => simp [mustSpill, startsLeft, callsOnLeftOnly]
  | var v => simp [mustSpill, startsLeft, callsOnLeftOnly]
  | bin op l r ihl ihr =>
      have hself : ((bin op l r).mustSpill useDepth).toNat +
          ((bin op l r).startsLeft useDepth).toNat = ((bin op l r).mustSpill false).toNat := by
        simp only [mustSpill, startsLeft_bin]
        cases useDepth <;> cases l.hasCall <;> cases r.hasCall <;> rfl
      rw [count_bin, count_bin, count_bin]
      omega
  | call name a ih => simpa [mustSpill, startsLeft, callsOnLeftOnly] using ih

theorem count_mustSpill_le_spills (useDepth : Bool) (e : Tree) (d : Nat) :
    e.count (mustSpill useDepth) ≤ e.spills useDepth d := by
  induction e generalizing d with
  | const v => exact le_rfl
  | var v => exact le_rfl
  | bin op l r ihl ihr =>
      have hnow := Nat.add_le_add (ihl d) (ihr d)
      have hlater := Nat.add_le_add (ihl (d + 1)) (ihr d)
      have hlater' := Nat.add_le_add (ihl d) (ihr (d + 1))
      have hself := Bool.toNat_le ((bin op l r).mustSpill useDepth)
      rw [count_bin, spills]
      split_ifs with hfirst hl
      · have hfree : (bin op l r).mustSpill useDepth = false := by simp_all [mustSpill]
        rw [hfree, Bool.toNat_false]
        omega
      · omega
      · have hfree : (bin op l r).mustSpill useDepth = false := by simp_all [mustSpill]
        rw [hfree, Bool.toNat_false]
        omega
  | call name a ih =>
      have hself : (call name a).mustSpill useDepth = false := rfl
      rw [count_call, spills, hself, Bool.toNat_false, Nat.zero_add]
      exact ih d

theorem Folds.forced_add_startsLeft_le {t : FunctionTable} {e f : Tree} (h : Folds t e f)
    (useDepth : Bool) (d : Nat) :
    f.count (mustSpill useDepth) + f.count (startsLeft useDepth) ≤
      e.spills useDepth d + e.count (startsLeft useDepth) :=
  calc
    _ = f.count (mustSpill false) := count_mustSpill_add useDepth f
    _ ≤ e.count (mustSpill false) := h.count_mustSpill_le
    _ = e.count (mustSpill useDepth) + e.count (startsLeft useDepth) :=
      (count_mustSpill_add useDepth e).symm
    _ ≤ _ := Nat.add_le_add_right (count_mustSpill_le_spills useDepth e d) _

end Tree

namespace RootedGraph

theorem folds_tree (r : RootedGraph) (t : FunctionTable) : Tree.Folds t r.tree (r.fold t).tree :=
  r.tree_fold t ▸ r.tree.folds_fold t

theorem count_isBin_fold_le (r : RootedGraph) (t : FunctionTable) :
    (r.fold t).tree.count Tree.isBin ≤ r.tree.count Tree.isBin :=
  r.tree_fold t ▸ Tree.count_isBin_fold_le t r.tree

end RootedGraph

namespace Code

theorem Plan.byteCount_code_bin (t : FunctionTable) (op : BinOp) (leftFirst force : Bool)
    (P Q : Plan) (p : Pool) :
    byteCount ((bin op leftFirst force P Q).code t p) =
      byteCount (P.code t p) + byteCount (Q.code t (p.stash force).2) + 12 +
        4 * (!(p.stash force).1.isRegister).toNat + 4 * leftFirst.toNat := by
  have hcharge : (p.stash force).1.charge = 12 + 4 * (!(p.stash force).1.isRegister).toNat := by
    cases (p.stash force).1 <;> rfl
  have hparts := (p.stash force).1.byteCount_park_add_owed
  simp only [code, byteCount_append, Handle.byteCount_combineCode]
  omega

theorem Plan.byteCount_code_ofTree (useDepth : Bool) (t : FunctionTable) (e : Tree) (p : Pool) :
    byteCount ((ofTree useDepth e).code t p) =
      15 * e.count Tree.isConst + 5 * e.count Tree.isVar + 12 * e.count Tree.isCall +
        8 * e.padded useDepth p.pendingSpills + 12 * e.count Tree.isBin +
        4 * (ofTree useDepth e).spills p + 4 * e.count (Tree.startsLeft useDepth) := by
  induction e generalizing p with
  | const v => exact byteCount_loadConst v
  | var v => exact byteCount_loadVar v
  | bin op l r ihl ihr =>
      simp only [Tree.count_bin, Tree.isConst, Tree.isVar, Tree.isCall, Tree.isBin, Tree.startsLeft,
        Tree.callsOnLeftOnly, Bool.toNat_false, Bool.toNat_true]
      rw [ofTree, Tree.padded]
      split
      · next hfirst =>
          obtain ⟨rfl, hleft⟩ := Bool.and_eq_true_iff.1 hfirst
          -- The right operand has no calls to be padded, wherever the left one is parked.
          have hr : r.hasCall = false := by simp_all
          rw [byteCount_code_bin, spills_bin, ihl, ihr, Tree.padded_of_hasCall_eq_false _ hr, hleft,
            Bool.true_and, Bool.toNat_true]
          omega
      · next hfirst =>
          have hleft : (l.hasCall && !r.hasCall && useDepth) = false := by
            rw [Bool.and_comm]
            exact Bool.eq_false_iff.2 hfirst
          rw [byteCount_code_bin, spills_bin, ihl, ihr, hleft, Bool.toNat_false]
          cases hl : l.hasCall with
          | true =>
              -- The right operand went on the stack by force, so the left one finds one more.
              have hspills : (p.stash true).2.pendingSpills = p.pendingSpills + 1 := rfl
              rw [hspills]
              omega
          | false =>
              rw [Tree.padded_of_hasCall_eq_false _ hl, Tree.padded_of_hasCall_eq_false _ hl]
              omega
  | call name a ih =>
      simp only [Tree.count_call, Tree.isConst, Tree.isVar, Tree.isCall, Tree.isBin,
        Tree.startsLeft, Tree.callsOnLeftOnly, Bool.toNat_false, Bool.toNat_true, Bool.false_and]
      rw [ofTree, Tree.padded, code, byteCount_append, ih, byteCount_callCode]
      have hspills : (call name (ofTree useDepth a)).spills p = (ofTree useDepth a).spills p := rfl
      omega

theorem Emitter.countP_isLeftFirst {g : Graph} {t : FunctionTable} {e e' : Emitter} {i : Fin g.size}
    {useDepth : Bool} (hrun : e.run g t (CallAnalysis.run g useDepth) [.eval i] = (e', none)) :
    (e.history g t (CallAnalysis.run g useDepth) [.eval i]).countP (·.2.isLeftFirst) =
      (g.unfold i).count (Tree.startsLeft useDepth) := by
  apply countP_history_eval (fun _ _ _ ↦ rfl) (fun _ _ _ ↦ rfl) _ (fun _ _ _ _ _ ↦ rfl) hrun
  intro i l r op h
  rw [binSteps_run, Tree.startsLeft, Tree.callsOnLeftOnly, Bool.and_comm _ useDepth]
  cases useDepth && ((g.unfold l).hasCall && !(g.unfold r).hasCall) <;> rfl

section

variable {r : RootedGraph} {t : FunctionTable} {s : Switches} {asm : Assembly}

theorem countP_isLeftFirst_history (h : (assemble r t s).1 = .ok asm) :
    (history r t s).countP (·.2.isLeftFirst) = r.tree.count (Tree.startsLeft s.useCallDepth) := by
  obtain ⟨e, hrun, -⟩ := exists_run_of_assemble h
  exact Emitter.countP_isLeftFirst hrun

/-- The calls that are padded, from two accounts of one code. -/
theorem countP_callsAtOddSpills_history (h : (assemble r t s).1 = .ok asm) :
    (history r t s).countP Emitter.callsAtOddSpills = r.tree.padded s.useCallDepth 0 := by
  have hframe : byteCount Emitter.prologue + byteCount Emitter.epilogue = 24 := by decide
  have hcode : asm.code.size = byteCount (routineCode t s (planOf r s)) := by
    rw [← Array.length_toList, toList_code_of_assemble h]
    rfl
  have hpending : (Pool.new s.useRegisters).pendingSpills = 0 := rfl
  rw [routineCode, byteCount_append, byteCount_append, planOf_eq, Plan.byteCount_code_ofTree,
    ← stackSpills_eq_spills_ofTree h, hpending] at hcode
  have hsize := size_code_of_assemble h
  rw [countP_isLeftFirst_history h] at hsize
  have hparked := parked_of_assemble h
  omega

theorem size_code_eq (h : (assemble r t s).1 = .ok asm) :
    asm.code.size = 24 + 15 * r.tree.count Tree.isConst + 5 * r.tree.count Tree.isVar +
      12 * (r.tree.count Tree.isCall + r.tree.count Tree.isBin) +
      8 * r.tree.padded s.useCallDepth 0 +
      4 * (asm.stats.stackSpills + r.tree.count (Tree.startsLeft s.useCallDepth)) := by
  have hsize := size_code_of_assemble h
  have hparked := parked_of_assemble h
  rw [countP_isLeftFirst_history h, countP_callsAtOddSpills_history h] at hsize
  omega

section Folded

variable {asm' : Assembly} (hasm : (assemble r t s).1 = .ok asm)
  (hasm' : (assemble (r.fold t) t s).1 = .ok asm')
include hasm hasm'

theorem size_code_fold :
    asm'.code.size + 27 * r.tree.count Tree.isBin + 12 * r.tree.count Tree.isCall +
        8 * r.tree.padded s.useCallDepth 0 +
        4 * (asm.stats.stackSpills + r.tree.count (Tree.startsLeft s.useCallDepth)) =
      asm.code.size + 27 * (r.fold t).tree.count Tree.isBin +
        12 * (r.fold t).tree.count Tree.isCall + 8 * (r.fold t).tree.padded s.useCallDepth 0 +
        4 * (asm'.stats.stackSpills +
          (r.fold t).tree.count (Tree.startsLeft s.useCallDepth)) := by
  have hvars := (r.folds_tree t).count_isVar
  have hconsts := (r.folds_tree t).count_isConst
  rw [size_code_eq hasm, size_code_eq hasm']
  omega

theorem stackSpills_fold_le
    (hcalls : (r.fold t).tree.count Tree.isCall = r.tree.count Tree.isCall) :
    asm'.stats.stackSpills ≤ asm.stats.stackSpills := by
  cases hregs : s.useRegisters with
  | true =>
      rw [stackSpills_of_assemble hasm hregs, stackSpills_of_assemble hasm' hregs]
      exact ((r.folds_tree t).same_order hcalls s.useCallDepth).2.2 0
  | false =>
      rw [stackSpills_of_assemble_of_off hasm hregs, stackSpills_of_assemble_of_off hasm' hregs]
      exact r.count_isBin_fold_le t

end Folded

/-- Folding a constant operation saves 27 bytes and folding a constant call 12, but for what becomes
of the other parts: the calls that are padded, the values that go on the stack and the operations
that start with their left operand. With registers the code gets longer at most by the padding and
by 4 bytes for each spill that is not forced, without them by the padding alone, and without the
depth of calls there is no more padding than before. It never gets longer if no call is folded. -/
theorem code_size_after_folding (h : r.tree.Known t) (s : Switches) :
    let padded := fun r ↦ (history r t s).countP Emitter.callsAtOddSpills
    let leftFirst := fun r ↦ (history r t s).countP (·.2.isLeftFirst)
    let forced := fun r ↦ (history r t s).countP (·.2.isForced)
    let operations := r.tree.count Tree.isBin - (r.fold t).tree.count Tree.isBin
    let calls := r.tree.count Tree.isCall - (r.fold t).tree.count Tree.isCall
    ∃ asm asm', (assemble r t s).1 = .ok asm ∧ (assemble (r.fold t) t s).1 = .ok asm' ∧
      asm'.code.size + 27 * operations + 12 * calls + 8 * padded r +
          4 * (asm.stats.stackSpills + leftFirst r) =
        asm.code.size + 8 * padded (r.fold t) +
          4 * (asm'.stats.stackSpills + leftFirst (r.fold t)) ∧
      (s.useRegisters = true →
        asm'.code.size + 27 * operations + 12 * calls + 8 * padded r + 4 * forced (r.fold t) ≤
          asm.code.size + 8 * padded (r.fold t) + 4 * asm'.stats.stackSpills) ∧
      (s.useRegisters = false →
        asm'.code.size + 31 * operations + 8 * calls + 8 * padded r ≤
          asm.code.size + 8 * padded (r.fold t)) ∧
      (s.useCallDepth = false → padded (r.fold t) ≤ padded r) ∧
      (calls = 0 → asm'.code.size + 27 * operations ≤ asm.code.size) := by
  intro padded leftFirst forced operations calls
  have hfolds := r.folds_tree t
  have hknown : (r.fold t).tree.Known t := r.tree_fold t ▸ h.fold t
  obtain ⟨asm, hasm, -⟩ := assemble_of_known s h
  obtain ⟨asm', hasm', -⟩ := assemble_of_known s hknown
  have hoperations : operations + (r.fold t).tree.count Tree.isBin = r.tree.count Tree.isBin :=
    Nat.sub_add_cancel (r.count_isBin_fold_le t)
  have hcalls : calls + (r.fold t).tree.count Tree.isCall = r.tree.count Tree.isCall :=
    Nat.sub_add_cancel hfolds.count_isCall_le
  have hpadded : padded r = r.tree.padded s.useCallDepth 0 ∧
      padded (r.fold t) = (r.fold t).tree.padded s.useCallDepth 0 :=
    ⟨countP_callsAtOddSpills_history hasm, countP_callsAtOddSpills_history hasm'⟩
  have hleft : leftFirst r = r.tree.count (Tree.startsLeft s.useCallDepth) ∧
      leftFirst (r.fold t) = (r.fold t).tree.count (Tree.startsLeft s.useCallDepth) :=
    ⟨countP_isLeftFirst_history hasm, countP_isLeftFirst_history hasm'⟩
  have hsize := size_code_fold hasm hasm'
  rw [← hpadded.1, ← hpadded.2, ← hleft.1, ← hleft.2] at hsize
  refine ⟨asm, asm', hasm, hasm', by omega, fun hon ↦ ?_, fun hoff ↦ ?_, fun hdepth ↦ ?_,
    fun hzero ↦ ?_⟩
  · have hforced : forced (r.fold t) = (r.fold t).tree.count (Tree.mustSpill s.useCallDepth) :=
      countP_isForced_history hknown s
    have hle := hfolds.forced_add_startsLeft_le s.useCallDepth 0
    rw [← hforced, ← hleft.1, ← hleft.2, ← stackSpills_of_assemble hasm hon] at hle
    omega
  · have hle := hfolds.count_startsLeft_le s.useCallDepth
    rw [← hleft.1, ← hleft.2] at hle
    rw [stackSpills_of_assemble_of_off hasm hoff,
      stackSpills_of_assemble_of_off hasm' hoff] at hsize
    omega
  · rw [hpadded.1, hpadded.2, hdepth]
    exact hfolds.padded_le 0
  · have hsame : (r.fold t).tree.count Tree.isCall = r.tree.count Tree.isCall := by omega
    obtain ⟨hstarts, hpads, -⟩ := hfolds.same_order hsame s.useCallDepth
    have hless := stackSpills_fold_le hasm hasm' hsame
    rw [← hleft.1, ← hleft.2] at hstarts
    rw [hpadded.1, hpadded.2, hpads 0] at hsize
    omega

end

/-- A product and a call that can be folded, beside a call that cannot. -/
theorem code_size_after_folding_of_constant_call :
    let r : RootedGraph :=
      ⟨⟨#[.const 4, .call "sqrt" 0, .var .x, .call "abs" 2, .const 2, .const 3, .bin .mul 4 5,
        .bin .mul 3 6, .bin .add 1 7], by decide⟩, ⟨8, by decide⟩⟩
    let s : Switches := { useRegisters := false, useCallDepth := false }
    r.tree.Known .standard ∧
      ∃ asm asm', (assemble r .standard s).1 = .ok asm ∧
        (assemble (r.fold .standard) .standard s).1 = .ok asm' ∧
        asm'.code.size + 39 ≤ asm.code.size := by
  intro r s
  have hknown : r.tree.Known .standard := Tree.firstUnknown?_eq_none_iff.1 (by decide)
  obtain ⟨asm, asm', hasm, hasm', -, -, hoff, hpadded, -⟩ := code_size_after_folding hknown s
  have hcounts : r.tree.count Tree.isBin = 3 ∧ r.tree.count Tree.isCall = 2 := by decide
  have hcounts' : (r.fold .standard).tree.count Tree.isBin = 2 ∧
      (r.fold .standard).tree.count Tree.isCall = 1 := by
    rw [r.tree_fold]
    decide
  have hsize := hoff rfl
  have hless := hpadded rfl
  rw [hcounts.1, hcounts.2, hcounts'.1, hcounts'.2] at hsize
  exact ⟨hknown, asm, asm', hasm, hasm', by omega⟩

/-- The three nested calls find two values on the stack. With the call on a constant one of these
goes away, and each of the three is padded. -/
theorem folding_can_lengthen_code :
    ∃ e asm asm', Expr.parse "abs(abs(abs(x)))+sqrt(4)+abs(x)" = .ok e ∧
      (assemble e.toGraph .standard {}).1 = .ok asm ∧
      (assemble (e.toGraph.fold .standard) .standard {}).1 = .ok asm' ∧
      asm.code.size = 149 ∧ asm'.code.size = 153 := by
  have hsizes : (Expr.parse "abs(abs(abs(x)))+sqrt(4)+abs(x)").toOption.any (fun e ↦
      (assemble e.toGraph .standard {}).1.toOption.any (·.code.size = 149) &&
      (assemble (e.toGraph.fold .standard) .standard {}).1.toOption.any
        (·.code.size = 153)) = true := by
    decide +kernel
  obtain ⟨e, hparse, hsizes⟩ := exists_ok_of_any hsizes
  rw [Bool.and_eq_true] at hsizes
  obtain ⟨asm, hasm, hsize⟩ := exists_ok_of_any hsizes.1
  obtain ⟨asm', hasm', hsize'⟩ := exists_ok_of_any hsizes.2
  exact ⟨e, asm, asm', hparse, hasm, hasm', of_decide_eq_true hsize, of_decide_eq_true hsize'⟩

end Code

end Formula
