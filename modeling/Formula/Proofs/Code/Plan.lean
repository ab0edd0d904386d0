import Formula.Code.Emitter
import Formula.Proofs.Graph.Basic

/-!
# Emission by recursion

A `Plan` is a formula with its order of evaluation: for each operation which operand comes first and
whether the first one must be parked on the stack. `Plan.emit` writes the instructions of a plan by
recursion. `Graph.plan` is the plan that the analysis of calls gives for a node, and working off the
list of steps emits what the recursion emits (`Emitter.run_eval`).
-/

namespace Formula

namespace Code

/-- A formula with its order of evaluation. -/
inductive Plan where
  | const (value : Double)
  | var (v : Var)
  | bin (op : BinOp) (leftFirst force : Bool) (first second : Plan)
  | call (name : String) (arg : Plan)

namespace Plan

/-- The formula, without the order of evaluation. -/
def tree : Plan → Tree
  | const v => .const v
  | var v => .var v
  | bin op true _ p q => .bin op p.tree q.tree
  | bin op false _ p q => .bin op q.tree p.tree
  | call name p => .call name p.tree

/-- Where the second operand calls a function, the first one is parked on the stack. -/
def Safe : Plan → Prop
  | const _ | var _ => True
  | bin _ _ force p q => (q.tree.hasCall = true → force = true) ∧ p.Safe ∧ q.Safe
  | call _ p => p.Safe

theorem hasCall_tree_bin (op : BinOp) (leftFirst force : Bool) (p q : Plan) :
    (bin op leftFirst force p q).tree.hasCall = (p.tree.hasCall || q.tree.hasCall) := by
  cases leftFirst <;> simp [tree, Tree.hasCall, Bool.or_comm]

theorem height_tree_bin (op : BinOp) (leftFirst force : Bool) (p q : Plan) :
    (bin op leftFirst force p q).tree.height = max p.tree.height q.tree.height + 1 := by
  cases leftFirst <;> simp [tree, Tree.height, max_comm]

theorem known_tree_bin (t : FunctionTable) (op : BinOp) (leftFirst force : Bool) (p q : Plan) :
    (bin op leftFirst force p q).tree.Known t ↔ p.tree.Known t ∧ q.tree.Known t := by
  cases leftFirst <;> simp [tree, Tree.Known, and_comm]

end Plan

/-- Goes on with what has come out, unless that is an error. -/
def Emitter.andThen (r : Emitter × Option EmitError) (next : Emitter → Emitter × Option EmitError) :
    Emitter × Option EmitError :=
  match r with
  | (e, some f) => (e, some f)
  | (e, none) => next e

/-- Emits a plan: operands first, each part behind the one before it. -/
def Plan.emit (t : FunctionTable) : Plan → Emitter → Emitter × Option EmitError
  | const v, e => (e.emit (Emitter.loadConst v), none)
  | var v, e => (e.emit (Emitter.loadVar v), none)
  | bin op leftFirst force p q, e =>
    Emitter.andThen (p.emit t e) fun e ↦
      Emitter.andThen (q.emit t (e.park force)) fun e ↦ e.combine op leftFirst
  | call name p, e =>
    match t.address? name with
    | none => (e, some (.unknownFunction ⟨name⟩))
    | some address =>
      Emitter.andThen (p.emit t e) fun e ↦
        (e.emit (Emitter.callCode address e.pool.pendingSpills), none)

end Code

open Code

namespace Graph

/-- The plan that an analysis of calls gives for a node. -/
def plan (g : Graph) (a : CallAnalysis) (i : Fin g.size) : Plan :=
  match h : g.node i with
  | .const v => .const v
  | .var v => .var v
  | .bin op l r =>
    have hlt := lt_of_node_eq_bin h
    let lhs := g.plan a ⟨l, hlt.1.trans i.2⟩
    let rhs := g.plan a ⟨r, hlt.2.trans i.2⟩
    if Emitter.leftFirst a l r then .bin op true (a.hasCall r) lhs rhs
    else .bin op false (a.hasCall l) rhs lhs
  | .call name arg => .call name (g.plan a ⟨arg, (lt_of_node_eq_call h).trans i.2⟩)
termination_by i.val
decreasing_by
  · exact hlt.1
  · exact hlt.2
  · exact lt_of_node_eq_call h

variable {g : Graph} {a : CallAnalysis} {i : Fin g.size}

theorem plan_const {v : Double} (h : g.node i = .const v) : g.plan a i = .const v := by
  rw [plan]
  split <;> simp_all

theorem plan_var {v : Var} (h : g.node i = .var v) : g.plan a i = .var v := by
  rw [plan]
  split <;> simp_all

theorem plan_bin {op : BinOp} {l r : Fin g.size} (h : g.node i = .bin op l r) :
    g.plan a i =
      if Emitter.leftFirst a l r then .bin op true (a.hasCall r) (g.plan a l) (g.plan a r)
      else .bin op false (a.hasCall l) (g.plan a r) (g.plan a l) := by
  rw [plan]
  split <;> simp_all

theorem plan_call {name : String} {arg : Fin g.size} (h : g.node i = .call name arg) :
    g.plan a i = .call name (g.plan a arg) := by
  rw [plan]
  split <;> simp_all

theorem tree_plan (g : Graph) (a : CallAnalysis) (i : Fin g.size) :
    (g.plan a i).tree = g.unfold i := by
  induction i using node_induction with
  | const i v h =>
      rw [plan_const h, unfold_const h]
      rfl
  | var i v h =>
      rw [plan_var h, unfold_var h]
      rfl
  | bin i op l r h ihl ihr =>
      rw [plan_bin h, unfold_bin h]
      split <;> simp [Plan.tree, ihl, ihr]
  | call i name arg h ih =>
      rw [plan_call h, unfold_call h]
      simp [Plan.tree, ih]

/-- A plan is safe when the analysis misses no call. -/
theorem safe_plan (g : Graph) {a : CallAnalysis}
    (ha : ∀ i : Fin g.size, (g.unfold i).hasCall = true → a.hasCall i = true) (i : Fin g.size) :
    (g.plan a i).Safe := by
  induction i using node_induction with
  | const i v h => simp [plan_const h, Plan.Safe]
  | var i v h => simp [plan_var h, Plan.Safe]
  | bin i op l r h ihl ihr =>
      rw [plan_bin h]
      split
      · exact ⟨fun hr ↦ ha r (g.tree_plan a r ▸ hr), ihl, ihr⟩
      · exact ⟨fun hl ↦ ha l (g.tree_plan a l ▸ hl), ihr, ihl⟩
  | call i name arg h ih =>
      rw [plan_call h]
      exact ih

end Graph

namespace Code.Emitter

section Steps

variable {g : Graph} {t : FunctionTable} {a : CallAnalysis} {e : Emitter}
  {rest : List (Step (Fin g.size))}
  {i : Fin g.size}

@[simp] theorem emit_nil (e : Emitter) : e.emit [] = e := by
  simp [emit]

theorem next_eval {is : List X86.Instr} {steps : List (Step (Fin g.size))}
    (h : expand g t a i = .ok (is, steps)) : e.next g t a (.eval i) = (e.emit is, .ok steps) := by
  rw [next, advance, h]

theorem expand_const {v : Double} (h : g.node i = .const v) :
    expand g t a i = .ok (loadConst v, []) := by
  rw [expand]
  split <;> simp_all

theorem next_const {v : Double} (h : g.node i = .const v) :
    e.next g t a (.eval i) = (e.emit (loadConst v), .ok []) :=
  next_eval (expand_const h)

theorem expand_var {v : Var} (h : g.node i = .var v) : expand g t a i = .ok (loadVar v, []) := by
  rw [expand]
  split <;> simp_all

theorem next_var {v : Var} (h : g.node i = .var v) :
    e.next g t a (.eval i) = (e.emit (loadVar v), .ok []) :=
  next_eval (expand_var h)

theorem expand_bin {l r : Fin g.size} {op : BinOp} (h : g.node i = .bin op l r) :
    expand g t a i = .ok ([], binSteps a op l r) := by
  rw [expand]
  split <;> simp_all

theorem next_bin {l r : Fin g.size} {op : BinOp} (h : g.node i = .bin op l r) :
    e.next g t a (.eval i) = (e, .ok (binSteps a op l r)) := by
  rw [next_eval (expand_bin h), emit_nil]

theorem expand_call {arg : Fin g.size} {name : String} {address : UInt64}
    (h : g.node i = .call name arg) (haddr : t.address? name = some address) :
    expand g t a i = .ok ([], [.eval arg, .callNative address]) := by
  rw [expand]
  split <;> simp_all

theorem next_call {arg : Fin g.size} {name : String} {address : UInt64}
    (h : g.node i = .call name arg) (haddr : t.address? name = some address) :
    e.next g t a (.eval i) = (e, .ok [.eval arg, .callNative address]) := by
  rw [next_eval (expand_call h haddr), emit_nil]

theorem expand_call_of_none {name : String} {arg : Nat} (h : g.node i = .call name arg)
    (haddr : t.address? name = none) :
    expand g t a i = .error (.unknownFunction ⟨name⟩) := by
  rw [expand]
  split <;> simp_all

theorem next_call_of_none {name : String} {arg : Nat} (h : g.node i = .call name arg)
    (haddr : t.address? name = none) :
    e.next g t a (.eval i) = (e, .error (.unknownFunction ⟨name⟩)) := by
  rw [next, advance, expand_call_of_none h haddr]

theorem run_nil : e.run g t a [] = (e, none) := by
  rw [run]

/-- Working off a list of steps goes on from what the first step leaves. -/
theorem run_of_next {e' : Emitter} {s : Step (Fin g.size)} {steps : List (Step (Fin g.size))}
    (h : e.next g t a s = (e', .ok steps)) :
    e.run g t a (s :: rest) = e'.run g t a (steps ++ rest) := by
  rw [run]
  split <;> simp_all

theorem run_of_next_error {e' : Emitter} {s : Step (Fin g.size)} {f : EmitError}
    (h : e.next g t a s = (e', .error f)) : e.run g t a (s :: rest) = (e', some f) := by
  rw [run]
  split <;> simp_all

theorem run_park (force : Bool) :
    e.run g t a (.park force :: rest) = (e.park force).run g t a rest := by
  have hnext : e.next g t a (.park force) = (e.park force, .ok []) := rfl
  exact run_of_next hnext

theorem run_combine (op : BinOp) (leftFirst : Bool) :
    e.run g t a (.combine op leftFirst :: rest) =
      andThen (e.combine op leftFirst) fun e ↦ e.run g t a rest := by
  cases h : e.combine op leftFirst with
  | mk e' f =>
      cases f with
      | none =>
          have hnext : e.next g t a (.combine op leftFirst) = (e', .ok []) := by
            simp only [next, advance, h]
          exact run_of_next hnext
      | some f => exact run_of_next_error (by simp only [next, advance, h, id])

theorem run_callNative (address : UInt64) :
    e.run g t a (.callNative address :: rest) =
      (e.emit (callCode address e.pool.pendingSpills)).run g t a rest := by
  have hnext : e.next g t a (.callNative address) =
      (e.emit (callCode address e.pool.pendingSpills), .ok []) := rfl
  exact run_of_next hnext

end Steps

theorem andThen_assoc (r : Emitter × Option EmitError)
    (next after : Emitter → Emitter × Option EmitError) :
    andThen (andThen r next) after = andThen r fun e ↦ andThen (next e) after := by
  obtain ⟨e, _ | f⟩ := r <;> rfl

/-- Working off the steps of a node emits its plan and goes on with the steps behind it. -/
theorem run_eval (g : Graph) (t : FunctionTable) (a : CallAnalysis) (i : Fin g.size) (e : Emitter)
    (rest : List (Step (Fin g.size))) :
    e.run g t a (.eval i :: rest) =
      andThen ((g.plan a i).emit t e) fun e ↦ e.run g t a rest := by
  induction i using Graph.node_induction generalizing e rest with
  | const i v h =>
      rw [Graph.plan_const h, run_of_next (next_const h)]
      rfl
  | var i v h =>
      rw [Graph.plan_var h, run_of_next (next_var h)]
      rfl
  | bin i op l r h ihl ihr =>
      rw [run_of_next (next_bin h), Graph.plan_bin h, binSteps]
      split <;>
        simp only [List.cons_append, List.nil_append, ihl, ihr, run_park, run_combine, Plan.emit,
          andThen_assoc]
  | call i name arg h ih =>
      rw [Graph.plan_call h, Plan.emit]
      cases haddr : t.address? name with
      | none => exact run_of_next_error (next_call_of_none h haddr)
      | some address =>
          simp only [run_of_next (next_call h haddr), List.cons_append, List.nil_append, ih,
            andThen_assoc, run_callNative]
          rfl

end Code.Emitter

end Formula
