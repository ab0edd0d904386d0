import Formula.Code.Pool
import Formula.FunctionTable
import Formula.Graph.Calls
import Formula.Graph.Value
import Formula.Switches.Basic

/-!
# From graphs to instructions

Every part of a formula leaves its value in `xmm0`. For an operation one operand is computed and
parked, then the other, and the parked one is brought back. The right operand comes first, unless
the left one has the deeper calls and the right one has none. The inputs are kept in two slots under
the frame pointer, the parked values that are on the stack below them.

The work that is left stands in a list. `Emitter.next` does one step and gives the steps that take
its place, and `Emitter.run` does so with the first step on the list until none is left; the number
of nodes of the unfolded formulas bounds how often.
-/

namespace Formula

/-- The place of an input, from the frame pointer. -/
def Var.slot : Var → Int32
  | x => -8
  | y => -16

namespace Code

open X86

inductive Step (ι : Type) where
  | eval (i : ι)
  | park (force : Bool)
  | combine (op : BinOp) (leftFirst : Bool)
  | callNative (address : UInt64)

namespace Step

variable {g : Graph}

def weight : Step (Fin g.size) → Nat
  | eval i => 5 * (g.unfold i).size
  | park _ | combine .. | callNative _ => 1

def weights (steps : List (Step (Fin g.size))) : Nat := steps.foldr (fun s n ↦ s.weight + n) 0

@[simp] theorem weights_nil : weights ([] : List (Step (Fin g.size))) = 0 := rfl

@[simp] theorem weights_cons (s : Step (Fin g.size)) (steps : List (Step (Fin g.size))) :
    weights (s :: steps) = s.weight + weights steps := rfl

theorem weight_pos (s : Step (Fin g.size)) : 0 < s.weight := by
  cases s with
  | eval i => exact Nat.mul_pos (by decide) (g.unfold i).size_pos
  | park force => exact Nat.one_pos
  | combine op leftFirst => exact Nat.one_pos
  | callNative address => exact Nat.one_pos

theorem weights_lt_cons (s : Step (Fin g.size)) (rest : List (Step (Fin g.size))) :
    weights rest < weights (s :: rest) := by
  rw [weights_cons]
  exact Nat.lt_add_of_pos_left s.weight_pos

end Step

/-- Why no code comes out. Only the first can happen. -/
inductive EmitError where
  | unknownFunction (e : UnknownFunction)
  | nothingParked
  | pool (f : Pool.Fault)
deriving DecidableEq, Repr

structure Emitter where
  code : Array Instr
  pool : Pool
  parked : List Handle
  log : Array Log.Record

namespace Emitter

def emit : Emitter → List Instr → Emitter
  | ⟨code, pool, parked, log⟩, is => ⟨code.appendList is, pool, parked, log⟩

def prologue : List Instr :=
  [.push .rbp, .movReg .rbp .rsp, .subImm .rsp 16,
    .movsdStore .rbp Var.x.slot xmm0, .movsdStore .rbp Var.y.slot xmm1]

def epilogue : List Instr := [.addImm .rsp 16, .pop .rbp, .ret]

def loadConst (v : Double) : List Instr := [.movImm .rax v.bits, .movqToXmm xmm0 .rax]

def loadVar (v : Var) : List Instr := [.movsdLoad xmm0 .rbp v.slot]

/-- A call keeps the stack at a multiple of sixteen, from which an odd number of spills is eight
off. -/
def callCode (address : UInt64) (pendingSpills : Nat) : List Instr :=
  let call : List Instr := [.movImm .rax address, .call .rax]
  if pendingSpills % 2 = 1 then .subImm .rsp 8 :: call ++ [.addImm .rsp 8] else call

def leftFirst (a : CallAnalysis) (l r : Nat) : Bool := a.depth r < a.depth l && !a.hasCall r

def binSteps {n : Nat} (a : CallAnalysis) (op : BinOp) (l r : Fin n) : List (Step (Fin n)) :=
  if leftFirst a l r then [.eval l, .park (a.hasCall r), .eval r, .combine op true]
  else [.eval r, .park (a.hasCall l), .eval l, .combine op false]

def park : Emitter → (force : Bool) → Emitter
  | ⟨code, pool, parked, log⟩, force =>
    let (h, pool) := pool.stash force
    ⟨code.appendList (Pool.park h), pool, h :: parked, log.push (Pool.stashRecord h force)⟩

/-- The other operand is in `xmm0`; the parked one goes where it belongs. -/
def combine : Emitter → BinOp → (leftFirst : Bool) → Emitter × Option EmitError
  | ⟨code, pool, [], log⟩, _, _ => (⟨code, pool, [], log⟩, some .nothingParked)
  | ⟨code, pool, h :: parked, log⟩, op, leftFirst =>
    let aside : List Instr := if leftFirst then [.movsd xmm1 xmm0] else []
    let (back, after) := pool.unstash h (if leftFirst then 0 else 1)
    match after with
    | .error f => (⟨code, pool, h :: parked, log⟩, some (.pool f))
    | .ok pool =>
      (⟨code.appendList (aside ++ back ++ [.arith op xmm0 xmm1]), pool, parked, log⟩, none)

/-- Does one step. `expand` says which instructions and which further steps compute a node, and
`fail` is for what goes wrong with a parked value. -/
def advance {ι ε : Type} (expand : ι → Except ε (List Instr × List (Step ι)))
    (fail : EmitError → ε) (e : Emitter) : Step ι → Emitter × Except ε (List (Step ι))
  | .eval i =>
    match expand i with
    | .error f => (e, .error f)
    | .ok (is, steps) => (e.emit is, .ok steps)
  | .park force => (e.park force, .ok [])
  | .combine op leftFirst =>
    match e.combine op leftFirst with
    | (e, some f) => (e, .error (fail f))
    | (e, none) => (e, .ok [])
  | .callNative address => (e.emit (callCode address e.pool.pendingSpills), .ok [])

def expand (g : Graph) (t : FunctionTable) (a : CallAnalysis) (i : Fin g.size) :
    Except EmitError (List Instr × List (Step (Fin g.size))) :=
  match h : g.node i with
  | .const v => .ok (loadConst v, [])
  | .var v => .ok (loadVar v, [])
  | .bin op l r => .ok ([], binSteps a op ⟨l, Graph.lhs_lt_size h⟩ ⟨r, Graph.rhs_lt_size h⟩)
  | .call name arg =>
    match t.address? name with
    | none => .error (.unknownFunction ⟨name⟩)
    | some address => .ok ([], [.eval ⟨arg, Graph.arg_lt_size h⟩, .callNative address])

def next (g : Graph) (t : FunctionTable) (a : CallAnalysis) :
    Emitter → Step (Fin g.size) → Emitter × Except EmitError (List (Step (Fin g.size))) :=
  advance (expand g t a) id

theorem size_unfold_bin {g : Graph} {i : Fin g.size} {op : BinOp} {l r : Nat}
    (h : g.node i = .bin op l r) :
    (g.unfold i).size = (g.unfold l).size + (g.unfold r).size + 1 := by
  rw [g.unfold_node i, h]
  rfl

theorem size_unfold_call {g : Graph} {i : Fin g.size} {name : String} {a : Nat}
    (h : g.node i = .call name a) :
    (g.unfold i).size = (g.unfold a).size + 1 := by
  rw [g.unfold_node i, h]
  rfl

theorem weights_binSteps {g : Graph} {i : Fin g.size} (a : CallAnalysis) (op : BinOp)
    (l r : Fin g.size) (rest : List (Step (Fin g.size)))
    (h : (g.unfold i).size = (g.unfold l).size + (g.unfold r).size + 1) :
    Step.weights (binSteps a op l r ++ rest) < Step.weights (.eval i :: rest) := by
  unfold binSteps
  split <;>
    simp only [List.cons_append, List.nil_append, Step.weights_cons, Step.weight, h] <;> omega

variable {g : Graph} {t : FunctionTable} {a : CallAnalysis} {e e' : Emitter}
  {s : Step (Fin g.size)} {steps : List (Step (Fin g.size))}

theorem weights_of_expand {i : Fin g.size} {is : List Instr}
    (h : expand g t a i = .ok (is, steps)) (rest : List (Step (Fin g.size))) :
    Step.weights (steps ++ rest) < Step.weights (.eval i :: rest) := by
  unfold expand at h
  split at h
  · cases h
    exact Step.weights_lt_cons _ rest
  · cases h
    exact Step.weights_lt_cons _ rest
  · next hnode =>
      cases h
      exact weights_binSteps a _ _ _ rest (size_unfold_bin hnode)
  · next hnode =>
      split at h
      · cases h
      · cases h
        have := size_unfold_call hnode
        simp only [List.cons_append, List.nil_append, Step.weights_cons, Step.weight]
        omega

theorem weights_of_next (h : e.next g t a s = (e', .ok steps)) (rest : List (Step (Fin g.size))) :
    Step.weights (steps ++ rest) < Step.weights (s :: rest) := by
  cases s with
  | eval i =>
    simp only [next, advance] at h
    split at h
    · cases h
    · next hexpand =>
        cases h
        exact weights_of_expand hexpand rest
  | park force =>
    cases h
    exact Step.weights_lt_cons _ rest
  | combine op leftFirst =>
    simp only [next, advance] at h
    split at h
    · cases h
    · cases h
      exact Step.weights_lt_cons _ rest
  | callNative address =>
    cases h
    exact Step.weights_lt_cons _ rest

/-- Does the steps in order. On an error it returns what was there when it arose. -/
def run (g : Graph) (t : FunctionTable) (a : CallAnalysis) (e : Emitter) :
    List (Step (Fin g.size)) → Emitter × Option EmitError
  | [] => (e, none)
  | s :: rest =>
    match h : e.next g t a s with
    | (e', .error f) => (e', some f)
    | (e', .ok steps) =>
      have := weights_of_next h rest
      run g t a e' (steps ++ rest)
termination_by steps => Step.weights steps

def start (s : Switches) : Emitter where
  code := prologue.toArray
  pool := .new s.useRegisters
  parked := []
  log := #[]

end Emitter

structure Assembly where
  code : Array UInt8
  stats : Stats
deriving DecidableEq, Repr

def Assembly.record (a : Assembly) : Log.Record where
  level := .debug
  target := "exprjit::jit::emitter"
  message :=
    let size := a.code.size
    let hits := a.stats.registersHit
    let spills := a.stats.stackSpills
    let top := a.stats.maxReg
    s!"emitted {size} bytes: {hits} register hits, {spills} stack spills, highest xmm{top}"

def emitWith (r : RootedGraph) (t : FunctionTable) (s : Switches) (a : CallAnalysis) :
    Emitter × Option EmitError :=
  (Emitter.start s).run r.graph t a [.eval r.root]

/-- The routine for a formula, and the records of its making, also of one that fails. -/
def assemble (r : RootedGraph) (t : FunctionTable) (s : Switches) :
    Except EmitError Assembly × Array Log.Record :=
  match emitWith r t s (CallAnalysis.run r.graph s.useCallDepth) with
  | (e, some f) => (.error f, e.log)
  | (e, none) =>
    let code := (e.code.appendList Emitter.epilogue).foldl (fun bs i ↦ bs.appendList i.encode) #[]
    let assembly : Assembly := ⟨code, e.pool.stats⟩
    (.ok assembly, e.log.push assembly.record)

end Code

end Formula
