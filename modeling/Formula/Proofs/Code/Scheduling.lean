import Formula.Proofs.Code.History
import Formula.Proofs.Code.Recursion

/-!
# What the depth of calls decides

The left operand comes first if its calls nest deeper than those of the right one and the right one
has none. A right operand without calls has depth zero, so this says that the left operand has calls
and the right one has none, however deep they are (`Tree.leftFirst_eq`). Then the parked value has
no call to outlast. Otherwise the right operand is parked, which has to outlast the calls of the
left one.
-/

namespace Formula

namespace Tree

theorem callDepth_pos_iff {e : Tree} : 0 < e.callDepth ↔ e.hasCall = true := by
  induction e with
  | const v => simp [callDepth, hasCall]
  | var v => simp [callDepth, hasCall]
  | bin op l r ihl ihr => rw [callDepth, hasCall, lt_max_iff, ihl, ihr, Bool.or_eq_true]
  | call name a _ => simp [callDepth, hasCall]

theorem leftFirst_eq (useDepth : Bool) (l r : Tree) :
    leftFirst useDepth l r = (useDepth && (l.hasCall && !r.hasCall)) := by
  rw [leftFirst, Bool.and_assoc]
  congr 1
  cases hr : r.hasCall with
  | true => simp
  | false =>
      have hzero : r.callDepth = 0 := by
        apply Nat.eq_zero_of_not_pos
        rw [callDepth_pos_iff, hr]
        exact Bool.false_ne_true
      rw [hzero, Bool.eq_iff_iff]
      simp [callDepth_pos_iff]

/-- An operation with calls on both sides. -/
def callsOnBothSides : Tree → Bool
  | bin _ l r => l.hasCall && r.hasCall
  | _ => false

/-- An operation whose first operand is parked on the stack, to outlast the calls of the second. -/
def mustSpill (useDepth : Bool) : Tree → Bool
  | bin _ l r => l.hasCall && (r.hasCall || !useDepth)
  | _ => false

theorem mustSpill_true : mustSpill true = callsOnBothSides := by
  funext e
  cases e <;> simp [mustSpill, callsOnBothSides]

theorem mustSpill_false_of_callsOnBothSides {e : Tree} (h : e.callsOnBothSides = true) :
    e.mustSpill false = true := by
  cases e <;> simp_all [mustSpill, callsOnBothSides]

end Tree

namespace Code

/-- The steps of an operation, with the left or the right operand first. -/
def Step.inOrder {g : Graph} (op : BinOp) (leftFirst force : Bool) (l r : Fin g.size) :
    List (Step (Fin g.size)) :=
  if leftFirst then [.eval l, .park force, .eval r, .combine op true]
  else [.eval r, .park force, .eval l, .combine op false]

theorem Step.countP_isForced_inOrder {g : Graph} (op : BinOp) (leftFirst force : Bool)
    (l r : Fin g.size) :
    ((inOrder op leftFirst force l r).filter fun s ↦ !s.isEval).countP isForced = force.toNat := by
  cases leftFirst <;> cases force <;> rfl

namespace Emitter

theorem binSteps_run {g : Graph} (useDepth : Bool) (op : BinOp) (l r : Fin g.size) :
    binSteps (CallAnalysis.run g useDepth) op l r =
      Step.inOrder op (useDepth && ((g.unfold l).hasCall && !(g.unfold r).hasCall))
        ((g.unfold l).hasCall && ((g.unfold r).hasCall || !useDepth)) l r := by
  rw [binSteps, Tree.leftFirst_run, Tree.leftFirst_eq, CallAnalysis.hasCall_run,
    CallAnalysis.hasCall_run]
  cases useDepth <;> cases (g.unfold l).hasCall <;> cases (g.unfold r).hasCall <;> rfl

theorem countP_isForced {g : Graph} {t : FunctionTable} {e e' : Emitter} {i : Fin g.size}
    {useDepth : Bool} (hrun : e.run g t (CallAnalysis.run g useDepth) [.eval i] = (e', none)) :
    (e.history g t (CallAnalysis.run g useDepth) [.eval i]).countP (·.2.isForced) =
      (g.unfold i).count (Tree.mustSpill useDepth) := by
  apply countP_history_eval (fun _ _ _ ↦ rfl) (fun _ _ _ ↦ rfl) _ (fun _ _ _ _ _ ↦ rfl) hrun
  intro i l r op h
  rw [binSteps_run, Step.countP_isForced_inOrder]
  exact (Nat.zero_add _).symm

end Emitter

theorem countP_isForced_history {r : RootedGraph} {t : FunctionTable} (h : r.tree.Known t)
    (s : Switches) :
    (history r t s).countP (·.2.isForced) = r.tree.count (Tree.mustSpill s.useCallDepth) := by
  obtain ⟨asm, hasm, -⟩ := assemble_of_known s h
  obtain ⟨e, hrun, -⟩ := exists_run_of_assemble hasm
  exact Emitter.countP_isForced hrun

theorem Pool.stashRecord_false_ne (h : Handle) : stashRecord h false ≠ stashRecord .spill true := by
  intro heq
  have hfalse : "false)".toList <:+ (stashRecord h false).message.toList :=
    ⟨("stash xmm0 -> " ++ h.describe ++ " (forced: ").toList, by simp [stashRecord]⟩
  have htrue : "true)".toList <:+ (stashRecord .spill true).message.toList := by decide
  -- Both are at the end of one message.
  rw [heq] at hfalse
  exact absurd (List.suffix_of_suffix_length_le htrue hfalse (by decide)) (by decide)

theorem Emitter.count_records {g : Graph} (x : Emitter × Step (Fin g.size)) :
    (records x).count (Pool.stashRecord .spill true) = x.2.isForced.toNat := by
  obtain ⟨e, s⟩ := x
  cases s with
  | eval i => rfl
  | combine op leftFirst => rfl
  | callNative address => rfl
  | park force =>
      cases force with
      | true => exact List.count_singleton_self
      | false => exact List.count_eq_zero.2 fun h ↦
          Pool.stashRecord_false_ne _ (List.mem_singleton.1 h).symm

/-- The log has a record for each forced spill. -/
theorem count_log_assemble {r : RootedGraph} {t : FunctionTable} (h : r.tree.Known t)
    (s : Switches) :
    (assemble r t s).2.count (Pool.stashRecord .spill true) =
      (history r t s).countP (·.2.isForced) := by
  obtain ⟨asm, hasm, -⟩ := assemble_of_known s h
  have hlast : asm.record ≠ Pool.stashRecord .spill true := fun heq ↦
    Log.Level.noConfusion (congrArg Log.Record.level heq)
  rw [← Array.count_toList, log_assemble hasm, List.count_append, List.count_flatMap,
    List.count_eq_zero_of_not_mem (by simpa using hlast.symm), Nat.add_zero, ← sum_map_toNat]
  exact congrArg List.sum (List.map_congr_left fun x _ ↦ Emitter.count_records x)

/-- With the depth of calls, the left operand of an operation comes first exactly if it has calls
and the right one has none, and the operand that comes first must go on the stack exactly if both
have calls. Without it the right operand comes first, and it must go on the stack exactly if the
left one has calls. So with the depth of calls there are as many forced spills as operations with
calls on both sides, which are no more than without, and the log that comes with a routine tells
their number. -/
theorem calls_decide_operand_order (g : Graph) :
    (∀ (i l r : Fin g.size) (op : BinOp), g.node i = .bin op l r → ∀ t e rest,
      Emitter.run g t (CallAnalysis.run g true) e (.eval i :: rest) =
          Emitter.run g t (CallAnalysis.run g true) e
            (Step.inOrder op ((g.unfold l).hasCall && !(g.unfold r).hasCall)
              ((g.unfold l).hasCall && (g.unfold r).hasCall) l r ++ rest) ∧
        Emitter.run g t (CallAnalysis.run g false) e (.eval i :: rest) =
          Emitter.run g t (CallAnalysis.run g false) e
            (Step.inOrder op false (g.unfold l).hasCall l r ++ rest)) ∧
      ∀ (root : Fin g.size) (t : FunctionTable) (s : Switches), (g.unfold root).Known t →
        let forced := fun useDepth ↦
          (history ⟨g, root⟩ t { s with useCallDepth := useDepth }).countP (·.2.isForced)
        forced true = (g.unfold root).count Tree.callsOnBothSides ∧ forced true ≤ forced false ∧
          ∀ useDepth, (assemble ⟨g, root⟩ t { s with useCallDepth := useDepth }).2.count
            (Pool.stashRecord .spill true) = forced useDepth := by
  constructor
  · intro i l r op h t e rest
    rw [Emitter.run_of_next (Emitter.next_bin h), Emitter.run_of_next (Emitter.next_bin h),
      Emitter.binSteps_run, Emitter.binSteps_run]
    simp
  · intro root t s hknown forced
    have hforced : ∀ useDepth, forced useDepth = (g.unfold root).count (Tree.mustSpill useDepth) :=
      fun _ ↦ countP_isForced_history hknown _
    refine ⟨?_, ?_, fun useDepth ↦ count_log_assemble hknown _⟩
    · rw [hforced, Tree.mustSpill_true]
    · rw [hforced, hforced, Tree.mustSpill_true]
      exact Tree.count_mono (fun _ ↦ Tree.mustSpill_false_of_callsOnBothSides) _

/-- The sum has calls on the left only, the product has them on both sides. -/
theorem calls_decide_operand_order_of_product :
    let g : Graph := ⟨#[.var .x, .call "next" 0, .bin .add 1 0, .bin .mul 1 2], by decide⟩
    let t : FunctionTable := ⟨[("next", ⟨1, .abs⟩)]⟩
    (∀ e rest, Emitter.run g t (CallAnalysis.run g true) e (.eval ⟨2, by decide⟩ :: rest) =
        Emitter.run g t (CallAnalysis.run g true) e (.eval ⟨1, by decide⟩ :: .park false ::
          .eval ⟨0, by decide⟩ :: .combine .add true :: rest)) ∧
      (history ⟨g, ⟨3, by decide⟩⟩ t {}).countP (·.2.isForced) = 1 ∧
      (assemble ⟨g, ⟨3, by decide⟩⟩ t {}).2.count (Pool.stashRecord .spill true) = 1 := by
  intro g t
  obtain ⟨hnode, hroot⟩ := calls_decide_operand_order g
  have hknown : (g.unfold 3).Known t := Tree.firstUnknown?_eq_none_iff.1 (by decide)
  obtain ⟨hforced, -, hlog⟩ := hroot ⟨3, by decide⟩ t {} hknown
  refine ⟨fun e rest ↦ ?_, hforced, (hlog true).trans hforced⟩
  exact (hnode ⟨2, by decide⟩ ⟨1, by decide⟩ ⟨0, by decide⟩ .add rfl t e rest).1

end Code

end Formula
