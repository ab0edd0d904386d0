import Formula.Code.Buffer
import Formula.Code.Emitter
import Formula.Expr.Parser
import Formula.Graph.Fold
import Formula.X86.Machine

/-!
# Routines

A routine is code in a block of executable memory, with the functions that its calls can reach.
`compile` makes one from the text of a formula; `Routine.evalOn` runs it from the first byte of the
block. What calls do, and the machine that a routine is entered on, are those of a `Host`.
-/

namespace Formula

namespace FunctionTable

def atAddress? (t : FunctionTable) (address : UInt64) : Option (Double → Double) :=
  (t.entries.find? fun (_, f) ↦ f.address = address).map fun (_, f) ↦ f.apply

end FunctionTable

/-- What a routine runs on: what calls do, and the machine that it is entered on. -/
structure Host where
  calls : X86.Machine.CallModel
  enter : (x y : Double) → X86.Machine

def Host.ofNatives (natives : UInt64 → Option (Double → Double)) : Host where
  calls := X86.Machine.callNative natives
  enter := X86.Machine.entry

def Host.standard : Host := .ofNatives FunctionTable.standard.atAddress?

structure Routine where
  code : Array UInt8
  block : Block
  stats : Code.Stats
  natives : UInt64 → Option (Double → Double)

namespace Routine

def load (a : Code.Assembly) (natives : UInt64 → Option (Double → Double)) :
    Except MemoryError Routine := do
  let block ← (Code.Buffer.empty.emitBytes a.code.toList).finalize
  return ⟨a.code, block, a.stats, natives⟩

def evalOn (r : Routine) (host : Host) (x y : Double) : Except X86.Machine.Fault Double := do
  let m ← X86.Machine.run host.calls (r.block.bytes 0 r.block.size) (host.enter x y)
  return ⟨m.getXmm X86.xmm0⟩

def eval (r : Routine) : (x y : Double) → Except X86.Machine.Fault Double :=
  r.evalOn (.ofNatives r.natives)

def codeSize (r : Routine) : Nat := r.code.size

def mappedSize (r : Routine) : Nat := r.block.size

def describe (r : Routine) : String :=
  let size := r.codeSize
  let hits := r.stats.registersHit
  let spills := r.stats.stackSpills
  let top := r.stats.maxReg
  s!"CompiledCode \x7b code_size: {size}, stats: EmitStats \x7b registers_hit: {hits}, " ++
    s!"stack_spills: {spills}, max_reg: {top} \x7d \x7d"

end Routine

inductive CompileError where
  | read (e : ReadError)
  | emit (e : Code.EmitError)
  | memory (e : MemoryError)
deriving DecidableEq, Repr

def Code.EmitError.message : Code.EmitError → String
  | unknownFunction e => e.message
  | nothingParked => "combine without a parked operand"
  | pool f => f.message

def CompileError.message : CompileError → String
  | read e => e.message
  | emit e => e.message
  | memory e => "executable memory: " ++ e.message

def compileRecord (r : RootedGraph) : Log.Record where
  level := .debug
  target := "exprjit::jit"
  message := "compiling " ++ r.display

/-- The formula that is compiled: the one read, folded if the switch says so. -/
def prepare (text : String) (t : FunctionTable) (s : Switches) : Except ReadError RootedGraph := do
  let e ← Expr.parse text
  return if s.useConstFolding then e.toGraph.fold t else e.toGraph

/-- The routine for the text of a formula, and the records of its making. -/
def compile (text : String) (t : FunctionTable) (s : Switches) :
    Except CompileError Routine × Array Log.Record :=
  match prepare text t s with
  | .error e => (.error (.read e), #[])
  | .ok r =>
    let (result, log) := Code.assemble r t s
    let routine := match result with
      | .error e => .error (.emit e)
      | .ok a => (Routine.load a t.atAddress?).mapError .memory
    (routine, #[compileRecord r] ++ log)

end Formula
