import Formula.Proofs.Code.Emission
import Formula.Proofs.Graph.CheckedCalls

/-!
# Emission with every access checked

The steps of emission are written here with bare indices, and the loop that works them off counts
its rounds instead of being known to end. Whatever could bring the program down is an outcome of its
own: an index that is out of range, a combination with nothing parked, misuse of the pool, a
register or a spill that is left over at the end. The loop ends after at most five rounds for each
node of the unfolded formula, and the outcome is that of `assemble`: code, or the name of a function
that has no entry (`emission_ends_in_order`). The counts of the pool have no bound of their own
here; they never exceed the number of instructions (`Emitter.Within`).
-/

namespace Formula.Code

open X86

theorem Pool.stats_of_unstash {p q : Pool} {h : Handle} {dest : Nat}
    (hok : (p.unstash h dest).2 = .ok q) :
    q.stats = p.stats ∧ q.pendingSpills ≤ p.pendingSpills := by
  rcases p.unstash_cases h dest with ⟨is, r, -, -, hback⟩ | ⟨is, k, -, hspills, hback⟩ |
    ⟨is, f, hback⟩
  · rw [hback] at hok
    cases hok
    exact ⟨rfl, le_rfl⟩
  · rw [hback] at hok
    cases hok
    exact ⟨rfl, hspills ▸ Nat.le_succ k⟩
  · rw [hback] at hok
    cases hok

/-- What would bring emission down. -/
inductive Panic where
  | analysis
  | capacity
  | badIndex
  | nothingParked
  | pool (f : Pool.Fault)
  | registersLeft
  | spillsLeft

inductive Halt where
  | unknownFunction (e : UnknownFunction)
  | panic (p : Panic)

def EmitError.halt : EmitError → Halt
  | unknownFunction e => .unknownFunction e
  | nothingParked => .panic .nothingParked
  | pool f => .panic (.pool f)

/-- A step whose index need not be in range. -/
abbrev BareStep := Step Nat

def Step.bare {n : Nat} : Step (Fin n) → BareStep
  | eval i => .eval i
  | park force => .park force
  | combine op leftFirst => .combine op leftFirst
  | callNative address => .callNative address

/-- Whether the left operand comes first, and whether the first operand is parked on the stack. -/
def orderChecked (a : CallAnalysis) (l r : Nat) : Option (Bool × Bool) := do
  let leftFirst ←
    if (← a.callDepth[r]?) < (← a.callDepth[l]?) then (!·) <$> a.containsCall[r]? else some false
  let force ← a.containsCall[if leftFirst then r else l]?
  return (leftFirst, force)

def binStepsChecked (a : CallAnalysis) (op : BinOp) (l r : Nat) : Option (List BareStep) := do
  let (leftFirst, force) ← orderChecked a l r
  let (first, second) := if leftFirst then (l, r) else (r, l)
  return [.eval first, .park force, .eval second, .combine op leftFirst]

/-- The instructions of a leaf, or the steps of an operation or a call. -/
def evalChecked (g : Graph) (t : FunctionTable) (a : CallAnalysis) (i : Nat) :
    Except Halt (List Instr × List BareStep) :=
  match g.nodes[i]? with
  | none => .error (.panic .badIndex)
  | some (.const v) => .ok (Emitter.loadConst v, [])
  | some (.var v) => .ok (Emitter.loadVar v, [])
  | some (.bin op l r) =>
    match binStepsChecked a op l r with
    | none => .error (.panic .badIndex)
    | some steps => .ok ([], steps)
  | some (.call name arg) =>
    match t.address? name with
    | none => .error (.unknownFunction ⟨name⟩)
    | some address => .ok ([], [.eval arg, .callNative address])

/-- How the loop stands. -/
inductive Status where
  | done
  | halted (h : Halt)
  | unfinished

def Status.ofError : Option EmitError → Status
  | none => .done
  | some f => .halted f.halt

namespace Emitter

/-- Does one step. The steps that come out of it go before those that are left. -/
def round (g : Graph) (t : FunctionTable) (a : CallAnalysis) :
    Emitter → BareStep → Emitter × Except Halt (List BareStep) :=
  advance (evalChecked g t a) EmitError.halt

/-- Does the steps in order, for a number of rounds. -/
def runChecked (g : Graph) (t : FunctionTable) (a : CallAnalysis) :
    Nat → Emitter → List BareStep → Emitter × Status
  | _, e, [] => (e, .done)
  | 0, e, _ :: _ => (e, .unfinished)
  | n + 1, e, s :: rest =>
    match e.round g t a s with
    | (e, .ok steps) => runChecked g t a n e (steps ++ rest)
    | (e, .error h) => (e, .halted h)

/-- Closes the routine. Nothing may be parked any more. -/
def finishChecked (e : Emitter) : Except Halt Assembly × Array Log.Record :=
  let e := e.emit epilogue
  if e.pool.occupied ≠ 0 then (.error (.panic .registersLeft), e.log)
  else if e.pool.pendingSpills ≠ 0 then (.error (.panic .spillsLeft), e.log)
  else
    let code := e.code.foldl (fun bs i ↦ bs.appendList i.encode) #[]
    let assembly : Assembly := ⟨code, e.pool.stats⟩
    (.ok assembly, e.log.push assembly.record)

end Emitter

/-- The routine for the formula at an index, if the loop ends within a number of rounds. -/
def assembleChecked (g : Graph) (root : Nat) (t : FunctionTable) (s : Switches) (rounds : Nat) :
    Option (Except Halt Assembly × Array Log.Record) :=
  match CallAnalysis.runChecked g s.useCallDepth with
  | none => some (.error (.panic .analysis), #[])
  | some a =>
    -- Room for the code is set aside first, and no more than this can be.
    if 2 ^ 63 ≤ 16 * g.size + 32 then some (.error (.panic .capacity), #[])
    else
      match Emitter.runChecked g t a rounds (.start s) [.eval root] with
      | (_, .unfinished) => none
      | (e, .halted h) => some (.error h, e.log)
      | (e, .done) => some e.finishChecked

variable {g : Graph} {t : FunctionTable} {a : CallAnalysis}

theorem binStepsChecked_eq (hcalls : a.containsCall.size = g.size)
    (hdepths : a.callDepth.size = g.size) (op : BinOp) (l r : Fin g.size) :
    binStepsChecked a op l r = some ((Emitter.binSteps a op l r).map Step.bare) := by
  have hcall : ∀ i : Fin g.size, a.containsCall[i.val]? = some (a.hasCall i) := fun i ↦
    getElem?_eq_some_getD (hcalls.symm ▸ i.2) false
  have hdepth : ∀ i : Fin g.size, a.callDepth[i.val]? = some (a.depth i) := fun i ↦
    getElem?_eq_some_getD (hdepths.symm ▸ i.2) 0
  have horder : orderChecked a l r = some (Emitter.leftFirst a l r,
      if Emitter.leftFirst a l r then a.hasCall r else a.hasCall l) := by
    simp only [orderChecked, hdepth, hcall, bind, Option.bind_some, Emitter.leftFirst]
    by_cases hdeep : a.depth r < a.depth l
    · by_cases hr : a.hasCall r = true
      · simp [hdeep, hr, hcall]
      · simp [hdeep, hr, hcall]
    · simp [hdeep, hcall]
  simp only [binStepsChecked, horder, bind, Option.bind_some, Emitter.binSteps]
  cases Emitter.leftFirst a l r <;> rfl

namespace Emitter

theorem evalChecked_eq (hcalls : a.containsCall.size = g.size) (hdepths : a.callDepth.size = g.size)
    (t : FunctionTable) (i : Fin g.size) :
    evalChecked g t a i =
      ((expand g t a i).mapError EmitError.halt).map fun (is, steps) ↦
        (is, steps.map Step.bare) := by
  have hnode : g.nodes[i.val]? = some (g.node i) := Array.getElem?_eq_getElem i.2
  induction i using Graph.node_induction with
  | const i v h =>
      rw [evalChecked, hnode, h, expand_const h]
      rfl
  | var i v h =>
      rw [evalChecked, hnode, h, expand_var h]
      rfl
  | bin i op l r h _ _ =>
      rw [evalChecked, hnode, h, expand_bin h]
      simp only [binStepsChecked_eq hcalls hdepths]
      rfl
  | call i name arg h _ =>
      rw [evalChecked, hnode, h]
      cases haddr : t.address? name with
      | none =>
          rw [expand_call_of_none h haddr]
          simp only [haddr]
          rfl
      | some address =>
          rw [expand_call h haddr]
          simp only [haddr]
          rfl

/-- A round does what a step in range does. -/
theorem round_bare (hcalls : a.containsCall.size = g.size) (hdepths : a.callDepth.size = g.size)
    (t : FunctionTable) (e : Emitter) (s : Step (Fin g.size)) :
    e.round g t a s.bare =
      (e.next g t a s).map id fun result ↦
        (result.mapError EmitError.halt).map (List.map Step.bare) := by
  cases s with
  | park force => rfl
  | callNative address => rfl
  | combine op leftFirst =>
      simp only [Step.bare, round, next, advance]
      obtain ⟨e', _ | f⟩ := e.combine op leftFirst <;> rfl
  | eval i =>
      simp only [Step.bare, round, next, advance, evalChecked_eq hcalls hdepths]
      obtain f | ⟨is, steps⟩ := expand g t a i <;> rfl

/-- The loop ends within as many rounds as the steps weigh, and as the loop over steps in range. -/
theorem runChecked_eq (hcalls : a.containsCall.size = g.size)
    (hdepths : a.callDepth.size = g.size) (t : FunctionTable) {n : Nat} {e : Emitter}
    {steps : List (Step (Fin g.size))} (hn : Step.weights steps ≤ n) :
    runChecked g t a n e (steps.map Step.bare) = (e.run g t a steps).map id Status.ofError := by
  induction n generalizing e steps with
  | zero =>
      cases steps with
      | nil =>
          rw [run_nil]
          rfl
      | cons s rest =>
          have := Step.weights_lt_cons s rest
          omega
  | succ n ih =>
      cases steps with
      | nil =>
          rw [run_nil]
          rfl
      | cons s rest =>
          rw [List.map_cons, runChecked, round_bare hcalls hdepths]
          cases hnext : e.next g t a s with
          | mk e' result =>
              cases result with
              | error f =>
                  rw [run_of_next_error hnext]
                  rfl
              | ok new =>
                  have hless := weights_of_next hnext rest
                  rw [run_of_next hnext, ← ih (by omega), List.map_append]
                  rfl

theorem size_code_emit (e : Emitter) (is : List Instr) :
    (e.emit is).code.size = e.code.size + is.length := by
  simp [emit, ← Array.length_toList]

/-- The counts are bounded by the number of instructions that are out. -/
structure Within (e : Emitter) : Prop where
  parks : e.pool.stats.registersHit + e.pool.stats.stackSpills ≤ e.code.size
  pending : e.pool.pendingSpills ≤ e.pool.stats.stackSpills

namespace Within

variable {e : Emitter}

theorem start (s : Switches) : (start s).Within := ⟨Nat.zero_le _, le_rfl⟩

theorem emit (h : e.Within) (is : List Instr) : (e.emit is).Within := by
  refine ⟨h.parks.trans ?_, h.pending⟩
  rw [size_code_emit]
  exact Nat.le_add_right _ _

theorem park (h : e.Within) (force : Bool) : (e.park force).Within := by
  obtain ⟨hparks, hpending⟩ := h
  rcases e.pool.stash_cases force with hstash | ⟨r, -, -, -, hstash⟩
  · have hsize : (e.park force).code.size = e.code.size + 2 := by
      simp [Emitter.park, hstash, ← Array.length_toList, Pool.park]
    have hpool : (e.park force).pool = e.pool.spilled := by simp [Emitter.park, hstash]
    constructor <;> simp only [hpool, hsize, Pool.spilled, Pool.countSpill] <;> omega
  · have hsize : (e.park force).code.size = e.code.size + 1 := by
      simp [Emitter.park, hstash, ← Array.length_toList, Pool.park]
    have hpool : (e.park force).pool = e.pool.take r := by simp [Emitter.park, hstash]
    constructor <;> simp only [hpool, hsize, Pool.take] <;> omega

theorem combine (h : e.Within) (op : BinOp) (leftFirst : Bool) :
    (e.combine op leftFirst).1.Within := by
  obtain ⟨code, pool, parked, log⟩ := e
  cases parked with
  | nil => exact h
  | cons handle parked =>
      rw [Emitter.combine]
      generalize hback : pool.unstash handle (if leftFirst then 0 else 1) = back
      obtain ⟨is, f | q⟩ := back
      · exact h
      · obtain ⟨hstats, hpending⟩ := Pool.stats_of_unstash (congrArg Prod.snd hback)
        refine ⟨?_, hpending.trans (hstats ▸ h.pending)⟩
        have hcode := size_code_emit ⟨code, pool, parked, log⟩
          ((if leftFirst then [.movsd xmm1 xmm0] else []) ++ is ++ [.arith op xmm0 xmm1])
        have hparks := h.parks
        simp only [Emitter.emit] at hcode
        simp only [hstats, hcode] at hparks ⊢
        omega

theorem round (h : e.Within) (s : BareStep) : (e.round g t a s).1.Within := by
  cases s with
  | eval i =>
      simp only [Emitter.round, advance]
      cases evalChecked g t a i with
      | error f => exact h
      | ok o => exact h.emit o.1
  | park force => exact h.park force
  | combine op leftFirst =>
      have hcombine := h.combine op leftFirst
      simp only [Emitter.round, advance]
      generalize e.combine op leftFirst = o at hcombine
      obtain ⟨e', _ | f⟩ := o
      · exact hcombine
      · exact hcombine
  | callNative address => exact h.emit _

theorem runChecked (h : e.Within) (n : Nat) (steps : List BareStep) :
    (Emitter.runChecked g t a n e steps).1.Within := by
  induction n generalizing e steps with
  | zero => cases steps <;> exact h
  | succ n ih =>
      cases steps with
      | nil => exact h
      | cons s rest =>
          have hround : (e.round g t a s).1.Within := h.round s
          rw [Emitter.runChecked]
          generalize e.round g t a s = o at hround
          obtain ⟨e', f | steps⟩ := o
          · exact hround
          · exact ih hround _

end Within

end Emitter

/-- Emission ends with nothing parked, or at a function that has no entry. -/
theorem emitWith_cases (r : RootedGraph) (t : FunctionTable) (s : Switches) (a : CallAnalysis) :
    (∃ e, emitWith r t s a = (e, none) ∧ e.parked = [] ∧ e.pool.occupied = 0 ∧
        e.pool.pendingSpills = 0) ∨
      ∃ e name, emitWith r t s a = (e, some (.unknownFunction ⟨name⟩)) := by
  rw [emitWith_eq]
  cases hfirst : (r.graph.plan a r.root).firstUnknown? t with
  | none =>
      left
      obtain ⟨e, hemit, -, hparked, hpool⟩ :=
        Plan.emit_of_known (Plan.firstUnknown?_eq_none_iff.1 hfirst) (.start s)
      have hoccupied : e.pool.occupied = (Pool.new s.useRegisters).occupied :=
        congrArg (·.toList.count true) hpool.used
      exact ⟨e, hemit, hparked, hoccupied.trans (Pool.occupied_new _), hpool.pendingSpills⟩
  | some name =>
      right
      obtain ⟨e, hemit⟩ := Plan.emit_of_firstUnknown? hfirst (.start s)
      exact ⟨e, name, hemit⟩

theorem assembleChecked_eq {r : RootedGraph} (hsize : r.graph.size < 2 ^ 32) (t : FunctionTable)
    (s : Switches) {rounds : Nat} (hrounds : 5 * r.tree.size ≤ rounds) :
    assembleChecked r.graph r.root t s rounds =
      some ((assemble r t s).map (·.mapError EmitError.halt) id) := by
  have hroom : ¬ 2 ^ 63 ≤ 16 * r.graph.size + 32 := by omega
  have hweights : Step.weights [Step.eval r.root] ≤ rounds := hrounds
  have hloop : Emitter.runChecked r.graph t (CallAnalysis.run r.graph s.useCallDepth) rounds
      (.start s) [.eval r.root] =
      (emitWith r t s (CallAnalysis.run r.graph s.useCallDepth)).map id Status.ofError :=
    Emitter.runChecked_eq (CallAnalysis.size_containsCall_run _ _)
      (CallAnalysis.size_callDepth_run _ _) t hweights
  rw [assembleChecked, CallAnalysis.runChecked_eq hsize, assemble]
  simp only [if_neg hroom, hloop]
  rcases emitWith_cases r t s (CallAnalysis.run r.graph s.useCallDepth) with
    ⟨e, hemit, -, hoccupied, hspills⟩ | ⟨e, name, hemit⟩
  · have hfinish : e.finishChecked = _ :=
      (if_neg (not_not.2 hoccupied)).trans (if_neg (not_not.2 hspills))
    simp only [hemit, Prod.map, Status.ofError, id]
    exact congrArg some hfinish
  · simp only [hemit]
    rfl

/-- In a graph of less than `2 ^ 32` nodes, with any table and any switches: the loop ends within
five rounds for each node of the unfolded formula; code comes out, or the name of a function that
has no entry, and nothing brings the program down; at the end of a formula nothing is parked, no
register is in use and no spill is pending. At any time the counts are bounded by the number of
instructions that are out. -/
theorem emission_ends_in_order (r : RootedGraph) (hsize : r.graph.size < 2 ^ 32)
    (t : FunctionTable) (s : Switches) :
    (∀ rounds, 5 * r.tree.size ≤ rounds →
        assembleChecked r.graph r.root t s rounds =
          some ((assemble r t s).map (·.mapError EmitError.halt) id)) ∧
      ((∃ asm, (assemble r t s).1 = .ok asm) ∨
        ∃ name, (assemble r t s).1 = .error (.unknownFunction ⟨name⟩)) ∧
      (∀ e, emitWith r t s (CallAnalysis.run r.graph s.useCallDepth) = (e, none) →
        e.parked = [] ∧ e.pool.occupied = 0 ∧ e.pool.pendingSpills = 0) ∧
      ∀ rounds, (Emitter.runChecked r.graph t (CallAnalysis.run r.graph s.useCallDepth) rounds
        (.start s) [.eval r.root]).1.Within := by
  refine ⟨fun rounds hrounds ↦ assembleChecked_eq hsize t s hrounds, ?_, ?_,
    fun rounds ↦ (Emitter.Within.start s).runChecked rounds _⟩
  · rcases emitWith_cases r t s (CallAnalysis.run r.graph s.useCallDepth) with
      ⟨e, hemit, -⟩ | ⟨e, name, hemit⟩
    · exact .inl ⟨_, by rw [assemble, hemit]⟩
    · exact .inr ⟨name, by rw [assemble, hemit]⟩
  · intro e h
    rcases emitWith_cases r t s (CallAnalysis.run r.graph s.useCallDepth) with
      ⟨e', hemit, hend⟩ | ⟨e', name, hemit⟩
    · cases hemit.symm.trans h
      exact hend
    · cases hemit.symm.trans h

/-- A call that stands once in the graph and four times in the formula. -/
theorem emission_ends_in_order_of_shared_call :
    let r : RootedGraph :=
      ⟨⟨#[.var .x, .call "next" 0, .bin .add 1 1, .bin .mul 2 2], by decide⟩, ⟨3, by decide⟩⟩
    let t : FunctionTable := ⟨[("next", ⟨1, .abs⟩)]⟩
    r.graph.size < 2 ^ 32 ∧ r.tree.size = 11 ∧ ∀ s, ∃ asm log,
      assembleChecked r.graph r.root t s 55 = some (.ok asm, log) := by
  intro r t
  have hsize : r.graph.size < 2 ^ 32 := by decide
  have htree : r.tree.size = 11 := by decide
  have hcall : (Tree.call "next" (.var .x)).Known t := ⟨rfl, trivial⟩
  have hknown : r.tree.Known t := ⟨⟨hcall, hcall⟩, hcall, hcall⟩
  refine ⟨hsize, htree, fun s ↦ ?_⟩
  obtain ⟨asm, hasm, -⟩ := assemble_of_known s hknown
  have hrun := (emission_ends_in_order r hsize t s).1 55 (by omega)
  refine ⟨asm, (assemble r t s).2, ?_⟩
  rw [hrun, Prod.map, hasm]
  rfl

end Formula.Code
