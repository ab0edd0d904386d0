import Formula.Proofs.Code.Emission
import Formula.Proofs.Tree.Parts

/-!
# The history of an emission

The history of an emission lists the steps that `Emitter.run` does, in order, each with the emitter
that it finds. `Emitter.Goes` says what a step can do, and what holds of every step holds along the
history (`Emitter.run_induction`): what every step keeps is there at every moment
(`Emitter.forall_history`), what is counted of the steps is what the parts of the formula count for
(`Emitter.countP_history_eval`), and the log is made of the records of the steps
(`log_assemble`).
-/

namespace Formula

namespace Code

open X86

namespace Step

variable {g : Graph}

def computes (q : Tree → Bool) : Step (Fin g.size) → Bool
  | eval i => q (g.unfold i)
  | _ => false

def isEval : Step (Fin g.size) → Bool
  | eval _ => true
  | _ => false

def isPark : Step (Fin g.size) → Bool
  | park _ => true
  | _ => false

def isForced : Step (Fin g.size) → Bool
  | park force => force
  | _ => false

def isLeftFirst : Step (Fin g.size) → Bool
  | combine _ leftFirst => leftFirst
  | _ => false

def isCall : Step (Fin g.size) → Bool
  | callNative _ => true
  | _ => false

/-- What a step counts for: the parts of a formula that is to be computed, or the step itself. -/
def worth (p : Step (Fin g.size) → Bool) (q : Tree → Bool) : Step (Fin g.size) → Nat
  | eval i => (g.unfold i).count q
  | s => (p s).toNat

end Step

namespace Emitter

/-- What a step that does not fail does to an emitter, and the steps that take its place. -/
inductive Goes (g : Graph) (t : FunctionTable) (a : CallAnalysis) (e : Emitter) :
    Step (Fin g.size) → Emitter → List (Step (Fin g.size)) → Prop
  | const {i : Fin g.size} {v : Double} (h : g.node i = .const v) :
    Goes g t a e (.eval i) (e.emit (loadConst v)) []
  | var {i : Fin g.size} {v : Var} (h : g.node i = .var v) :
    Goes g t a e (.eval i) (e.emit (loadVar v)) []
  | bin {i l r : Fin g.size} {op : BinOp} (h : g.node i = .bin op l r) :
    Goes g t a e (.eval i) e (binSteps a op l r)
  | call {i arg : Fin g.size} {name : String} {address : UInt64} (h : g.node i = .call name arg)
      (haddr : t.address? name = some address) :
    Goes g t a e (.eval i) e [.eval arg, .callNative address]
  | hold {r : Xmm} (henabled : e.pool.enabled = true) (hfree : e.pool.free? = some r) :
    Goes g t a e (.park false)
      ⟨e.code.appendList (Pool.park (.register r)), e.pool.take r, .register r :: e.parked,
        e.log.push (Pool.stashRecord (.register r) false)⟩ []
  | spill {force : Bool} (h : force = true ∨ e.pool.enabled = false ∨ e.pool.free? = none) :
    Goes g t a e (.park force)
      ⟨e.code.appendList (Pool.park .spill), e.pool.spilled, .spill :: e.parked,
        e.log.push (Pool.stashRecord .spill force)⟩ []
  | fetch {op : BinOp} {leftFirst : Bool} {r : Xmm} {parked : List Handle}
      (hparked : e.parked = .register r :: parked) (hused : e.pool.isUsed r = true) :
    Goes g t a e (.combine op leftFirst)
      ⟨e.code.appendList (combineCode op leftFirst (.register r)), e.pool.giveBack r, parked,
        e.log⟩ []
  | pop {op : BinOp} {leftFirst : Bool} {k : Nat} {parked : List Handle}
      (hparked : e.parked = .spill :: parked) (hspills : e.pool.pendingSpills = k + 1) :
    Goes g t a e (.combine op leftFirst)
      ⟨e.code.appendList (combineCode op leftFirst .spill), { e.pool with pendingSpills := k },
        parked, e.log⟩ []
  | callNative (address : UInt64) :
    Goes g t a e (.callNative address) (e.emit (callCode address e.pool.pendingSpills)) []

variable {g : Graph} {t : FunctionTable} {a : CallAnalysis} {e e' : Emitter} {s : Step (Fin g.size)}
  {steps rest : List (Step (Fin g.size))}

theorem goes_park (force : Bool) : Goes g t a e (.park force) (e.park force) [] := by
  obtain ⟨code, pool, parked, log⟩ := e
  rcases pool.stash_spec force with ⟨r, rfl, henabled, hfree, hstash⟩ | ⟨hspill, hstash⟩
  · rw [park, hstash]
    exact .hold henabled hfree
  · rw [park, hstash]
    exact .spill hspill

theorem goes_combine {op : BinOp} {leftFirst : Bool} (h : e.combine op leftFirst = (e', none)) :
    Goes g t a e (.combine op leftFirst) e' [] := by
  obtain ⟨code, pool, _ | ⟨handle, parked⟩, log⟩ := e
  · cases h
  · rw [combine] at h
    generalize hback : pool.unstash handle (if leftFirst then 0 else 1) = out at h
    obtain ⟨is, f | q⟩ := out
    · cases h
    · cases h
      obtain ⟨rfl, ⟨r, rfl, hused, rfl⟩ | ⟨k, rfl, hspills, rfl⟩⟩ := Pool.unstash_spec hback
      · exact .fetch rfl hused
      · exact .pop rfl hspills

theorem goes_of_next (h : e.next g t a s = (e', .ok steps)) : Goes g t a e s e' steps := by
  cases s with
  | park force =>
      cases h
      exact goes_park force
  | callNative address =>
      cases h
      exact .callNative address
  | combine op leftFirst =>
      rw [next, advance] at h
      split at h
      · cases h
      · next hout =>
          cases h
          exact goes_combine hout
  | eval i =>
      induction i using Graph.node_induction with
      | const i v hnode =>
          cases (next_const hnode).symm.trans h
          exact .const hnode
      | var i v hnode =>
          cases (next_var hnode).symm.trans h
          exact .var hnode
      | bin i op l r hnode _ _ =>
          cases (next_bin hnode).symm.trans h
          exact .bin hnode
      | call i name arg hnode _ =>
          cases haddr : t.address? name with
          | none => cases (next_call_of_none hnode haddr).symm.trans h
          | some address =>
              cases (next_call hnode haddr).symm.trans h
              exact .call hnode haddr

/-- The steps that are done, in order, each with the emitter that it finds. -/
def history (g : Graph) (t : FunctionTable) (a : CallAnalysis) (e : Emitter) :
    List (Step (Fin g.size)) → List (Emitter × Step (Fin g.size))
  | [] => []
  | s :: rest =>
    (e, s) :: match h : e.next g t a s with
      | (_, .error _) => []
      | (e', .ok steps) =>
        have := weights_of_next h rest
        history g t a e' (steps ++ rest)
termination_by steps => Step.weights steps

theorem history_of_next (h : e.next g t a s = (e', .ok steps)) (rest : List (Step (Fin g.size))) :
    e.history g t a (s :: rest) = (e, s) :: e'.history g t a (steps ++ rest) := by
  rw [history]
  split <;> simp_all

/-- What holds at the end and of a list of steps if it holds of what the first step leaves, holds of
every list of steps that can be worked off, and of its history. -/
theorem run_induction {motive : Emitter → List (Step (Fin g.size)) → Emitter →
      List (Emitter × Step (Fin g.size)) → Prop}
    (nil : ∀ e, motive e [] e [])
    (cons : ∀ e s e₁ steps rest e' done, Goes g t a e s e₁ steps →
      motive e₁ (steps ++ rest) e' done → motive e (s :: rest) e' ((e, s) :: done))
    (hrun : e.run g t a steps = (e', none)) : motive e steps e' (e.history g t a steps) := by
  -- The weight of the steps goes down with each of them.
  induction hweight : Step.weights steps using Nat.strong_induction_on generalizing e steps with
  | _ weight ih =>
    cases steps with
    | nil =>
        rw [run_nil] at hrun
        cases hrun
        rw [history]
        exact nil _
    | cons s rest =>
        cases hnext : e.next g t a s with
        | mk e₁ result =>
            cases result with
            | error f =>
                rw [run_of_next_error hnext] at hrun
                cases hrun
            | ok steps₁ =>
                rw [run_of_next hnext] at hrun
                rw [history_of_next hnext]
                have hless := weights_of_next hnext rest
                exact cons e s e₁ steps₁ rest e' _ (goes_of_next hnext)
                  (ih _ (hweight ▸ hless) hrun rfl)

/-- A step counts for what it is worth without the steps that take its place. -/
theorem countP_history {p : Step (Fin g.size) → Bool} {worth : Step (Fin g.size) → Nat}
    (hworth : ∀ e s e' steps, Goes g t a e s e' steps →
      worth s = (p s).toNat + (steps.map worth).sum)
    (hrun : e.run g t a steps = (e', none)) :
    (e.history g t a steps).countP (fun x ↦ p x.2) = (steps.map worth).sum := by
  refine run_induction
    (motive := fun _ steps _ done ↦ done.countP (fun x ↦ p x.2) = (steps.map worth).sum)
    (fun _ ↦ rfl) ?_ hrun
  intro e s e₁ new rest e' done hgoes ih
  rw [countP_cons_toNat, ih, List.map_cons, List.sum_cons, hworth e s e₁ new hgoes,
    List.map_append, List.sum_append, Nat.add_assoc]

/-- What is counted of the steps of each part, but for those that compute its operands, is what the
part counts for. -/
theorem countP_history_eval {p : Step (Fin g.size) → Bool} {q : Tree → Bool}
    (hconst : ∀ i v, g.node i = .const v → q (.const v) = p (.eval i))
    (hvar : ∀ i v, g.node i = .var v → q (.var v) = p (.eval i))
    (hbin : ∀ (i l r : Fin g.size) op, g.node i = .bin op l r →
      (q (.bin op (g.unfold l) (g.unfold r))).toNat =
        (p (.eval i)).toNat + ((binSteps a op l r).filter fun s ↦ !s.isEval).countP p)
    (hcall : ∀ (i arg : Fin g.size) name address, g.node i = .call name arg →
      (q (.call name (g.unfold arg))).toNat =
        (p (.eval i)).toNat + (p (.callNative address)).toNat)
    {i : Fin g.size} (hrun : e.run g t a [.eval i] = (e', none)) :
    (e.history g t a [.eval i]).countP (fun x ↦ p x.2) = (g.unfold i).count q := by
  have hworth : ∀ e s e' steps, Goes g t a e s e' steps →
      s.worth p q = (p s).toNat + (steps.map (Step.worth p q)).sum := by
    intro e s e' steps hgoes
    cases hgoes with
    | hold | spill | fetch | pop | callNative => rfl
    | const h =>
        rw [Step.worth, Graph.unfold_const h, Tree.count_const, hconst _ _ h]
        rfl
    | var h =>
        rw [Step.worth, Graph.unfold_var h, Tree.count_var, hvar _ _ h]
        rfl
    | bin h =>
        rw [Step.worth, Graph.unfold_bin h, Tree.count_bin, hbin _ _ _ _ h, binSteps]
        split <;>
          simp only [List.map_cons, List.map_nil, List.sum_cons, List.sum_nil, Step.worth,
            List.filter_cons, List.filter_nil, Step.isEval, Bool.not_true, Bool.not_false,
            Bool.false_eq_true, if_true, if_false, countP_cons_toNat, List.countP_nil] <;>
          omega
    | @call i arg name address h haddr =>
        rw [Step.worth, Graph.unfold_call h, Tree.count_call, hcall i arg name address h]
        simp only [List.map_cons, List.map_nil, List.sum_cons, List.sum_nil, Step.worth]
        omega
  rw [countP_history hworth hrun, List.map_singleton, List.sum_singleton, Step.worth]

section Counts

variable {i : Fin g.size} (hrun : e.run g t a [.eval i] = (e', none))
include hrun

theorem countP_computes (q : Tree → Bool) :
    (e.history g t a [.eval i]).countP (·.2.computes q) = (g.unfold i).count q := by
  apply countP_history_eval _ _ _ _ hrun
  · intro i v h
    rw [Step.computes, Graph.unfold_const h]
  · intro i v h
    rw [Step.computes, Graph.unfold_var h]
  · intro i l r op h
    rw [Step.computes, Graph.unfold_bin h, binSteps]
    split <;> rfl
  · intro i arg name address h
    rw [Step.computes, Graph.unfold_call h]
    rfl

theorem countP_isPark :
    (e.history g t a [.eval i]).countP (·.2.isPark) = (g.unfold i).count Tree.isBin := by
  apply countP_history_eval (fun _ _ _ ↦ rfl) (fun _ _ _ ↦ rfl) _ (fun _ _ _ _ _ ↦ rfl) hrun
  intro i l r op h
  unfold binSteps
  split <;> rfl

theorem countP_isCall :
    (e.history g t a [.eval i]).countP (·.2.isCall) = (g.unfold i).count Tree.isCall := by
  apply countP_history_eval (fun _ _ _ ↦ rfl) (fun _ _ _ ↦ rfl) _ (fun _ _ _ _ _ ↦ rfl) hrun
  intro i l r op h
  unfold binSteps
  split <;> rfl

end Counts

/-- What every step keeps holds at every moment. -/
theorem forall_history {P : Emitter → Prop}
    (hkeep : ∀ e s e' steps, Goes g t a e s e' steps → P e → P e') (hstart : P e)
    (hrun : e.run g t a steps = (e', none)) : P e' ∧ ∀ x ∈ e.history g t a steps, P x.1 := by
  refine run_induction
    (motive := fun e _ e' done ↦ P e → P e' ∧ ∀ x ∈ done, P x.1)
    (fun _ h ↦ ⟨h, by simp⟩) ?_ hrun hstart
  intro e s e₁ new rest e' done hgoes ih h
  obtain ⟨hend, hdone⟩ := ih (hkeep e s e₁ new hgoes h)
  exact ⟨hend, List.forall_mem_cons.2 ⟨h, hdone⟩⟩

/-- Where every step changes a quantity by what it costs, all of them together change it by the sum
of their costs. -/
theorem sum_history {P : Emitter → Prop} (m : Emitter → Int)
    (cost : Emitter × Step (Fin g.size) → Nat)
    (hkeep : ∀ e s e' steps, Goes g t a e s e' steps → P e → P e')
    (hcost : ∀ e s e' steps, Goes g t a e s e' steps → P e → m e' = m e + cost (e, s))
    (hstart : P e) (hrun : e.run g t a steps = (e', none)) :
    m e' = m e + ((e.history g t a steps).map cost).sum := by
  refine run_induction
    (motive := fun e _ e' done ↦ P e → m e' = m e + (done.map cost).sum)
    (fun e _ ↦ by simp) ?_ hrun hstart
  intro e s e₁ new rest e' done hgoes ih h
  rw [ih (hkeep e s e₁ new hgoes h), hcost e s e₁ new hgoes h, List.map_cons, List.sum_cons]
  push_cast
  ring

/-- What a step writes in the log. -/
def records : Emitter × Step (Fin g.size) → List Log.Record
  | (e, .park force) => [Pool.stashRecord (e.pool.stash force).1 force]
  | _ => []

theorem log_of_goes (h : Goes g t a e s e' steps) :
    e'.log.toList = e.log.toList ++ records (e, s) := by
  cases h with
  | const | var | bin | call | fetch | pop | callNative => exact (List.append_nil _).symm
  | hold henabled hfree => simp [records, Pool.stash, Pool.acquire, henabled, hfree]
  | @spill force hspill =>
      rcases e.pool.stash_spec force with ⟨r, hforce, henabled, hfree, -⟩ | ⟨-, hstash⟩
      · simp [hforce, henabled, hfree] at hspill
      · simp [records, hstash]

/-- The log is made of the records of the history. -/
theorem log_run (hrun : e.run g t a steps = (e', none)) :
    e'.log.toList = e.log.toList ++ (e.history g t a steps).flatMap records := by
  refine run_induction
    (motive := fun e _ e' done ↦ e'.log.toList = e.log.toList ++ done.flatMap records)
    (fun _ ↦ (List.append_nil _).symm) ?_ hrun
  intro e s e₁ new rest e' done hgoes ih
  rw [ih, log_of_goes hgoes, List.flatMap_cons, List.append_assoc]

end Emitter

/-- The history of assembling a routine. -/
def history (r : RootedGraph) (t : FunctionTable) (s : Switches) :
    List (Emitter × Step (Fin r.graph.size)) :=
  (Emitter.start s).history r.graph t (CallAnalysis.run r.graph s.useCallDepth) [.eval r.root]

/-- A routine is what an emission without an error has written, which leaves nothing parked. -/
theorem exists_run_of_assemble {r : RootedGraph} {t : FunctionTable} {s : Switches} {asm : Assembly}
    (h : (assemble r t s).1 = .ok asm) :
    ∃ e, (Emitter.start s).run r.graph t (CallAnalysis.run r.graph s.useCallDepth) [.eval r.root] =
        (e, none) ∧ e.parked = [] ∧ asm.stats = e.pool.stats ∧
      asm.code.toList = encodeAll (e.code.toList ++ Emitter.epilogue) := by
  have hknown : (planOf r s).tree.Known t := tree_planOf r s ▸ known_of_assemble h
  obtain ⟨e, hemit, -, hparked, -⟩ := Plan.emit_of_known hknown (Emitter.start s)
  have hrun := (emitWith_eq r t s _).trans hemit
  rw [assemble, hrun] at h
  cases h
  refine ⟨e, hrun, hparked, rfl, ?_⟩
  rw [← Array.foldl_toList, toList_foldl_encode]
  simp

theorem log_assemble {r : RootedGraph} {t : FunctionTable} {s : Switches} {asm : Assembly}
    (h : (assemble r t s).1 = .ok asm) :
    (assemble r t s).2.toList = (history r t s).flatMap Emitter.records ++ [asm.record] := by
  obtain ⟨e, hrun, -⟩ := exists_run_of_assemble h
  have hlog := Emitter.log_run hrun
  have hemit : emitWith r t s (CallAnalysis.run r.graph s.useCallDepth) = (e, none) := hrun
  rw [assemble, hemit] at h ⊢
  cases h
  rw [Array.toList_push, hlog]
  rfl

end Code

end Formula
