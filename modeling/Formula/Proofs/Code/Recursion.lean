import Formula.Proofs.Code.Emission

/-!
# Code by recursion on the tree

`generate` writes the code of a formula by recursion on its tree. The place of a parked operand
is a local value of the recursion, where emission keeps a list of handles, and the order of operands
is decided by the subtrees, where emission reads the tables of the analysis. Working off the list of
steps gives the same code, the same counts, the same records and the same error
(`assembly_is_by_recursion`). So the code of a formula depends on its tree alone, not on how the
nodes of the tree are laid out and shared.
-/

namespace Formula

open Code X86

/-- How deeply calls nest. -/
def Tree.callDepth : Tree → Nat
  | const _ | var _ => 0
  | bin _ l r => max l.callDepth r.callDepth
  | call _ a => a.callDepth + 1

namespace CallAnalysis

theorem depth_scan (g : Graph) (i : Fin g.size) :
    (g.scan Node.nestedCalls).getD i 0 = (g.unfold i).callDepth := by
  have hdefault : (default : Nat) = 0 := rfl
  induction i using Graph.node_induction with
  | const i v h =>
      rw [g.getD_scan, h, Graph.unfold_const h]
      rfl
  | var i v h =>
      rw [g.getD_scan, h, Graph.unfold_var h]
      rfl
  | bin i op l r h ihl ihr =>
      rw [g.getD_scan, h, Graph.unfold_bin h, Node.map, hdefault, ihl, ihr]
      rfl
  | call i name arg h ih =>
      rw [g.getD_scan, h, Graph.unfold_call h, Node.map, hdefault, ih]
      rfl

theorem depth_run (g : Graph) (useDepth : Bool) (i : Fin g.size) :
    (run g useDepth).depth i = if useDepth then (g.unfold i).callDepth else 0 := by
  cases useDepth with
  | true => exact depth_scan g i
  | false => simp [run, depth, Array.getD_eq_getD_getElem?]

end CallAnalysis

namespace Tree

/-- Whether the left operand comes first: its calls nest deeper and the right one has none. -/
def leftFirst (useDepth : Bool) (l r : Tree) : Bool :=
  useDepth && decide (r.callDepth < l.callDepth) && !r.hasCall

theorem leftFirst_run (g : Graph) (useDepth : Bool) (l r : Fin g.size) :
    Emitter.leftFirst (CallAnalysis.run g useDepth) l r =
      leftFirst useDepth (g.unfold l) (g.unfold r) := by
  rw [Emitter.leftFirst, CallAnalysis.depth_run, CallAnalysis.depth_run, CallAnalysis.hasCall_run]
  cases useDepth <;> rfl

end Tree

namespace Code

/-- What has been written: instructions and records, and the pool that they left. -/
structure Draft where
  code : Array Instr
  pool : Pool
  log : Array Log.Record

/-- Writing code. An error leaves what has been written by then. -/
abbrev Writing := EStateM EmitError Draft

namespace Writing

def write (is : List Instr) : Writing Unit :=
  modify fun d ↦ { d with code := d.code.appendList is }

/-- Parks the value in `xmm0` and tells where. -/
def park (force : Bool) : Writing Handle := do
  let (h, pool) := (← get).pool.stash force
  match h with
  | .register n => write [.movsd (.ofNat n) xmm0]
  | .spill => write [.movqFromXmm .rax xmm0, .push .rax]
  modify fun d ↦ { d with pool, log := d.log.push (Pool.stashRecord h force) }
  return h

/-- Brings the parked operand back and applies the operator. The other operand is in `xmm0`, where
it must make room for a left operand. -/
def operate (op : BinOp) (leftFirst : Bool) (h : Handle) : Writing Unit := do
  match ((← get).pool.unstash h (if leftFirst then 0 else 1)).2 with
  | .error f => throw (.pool f)
  | .ok pool =>
    match leftFirst, h with
    | false, .register n => write [.movsd xmm1 (.ofNat n), .arith op xmm0 xmm1]
    | false, .spill => write [.pop .rax, .movqToXmm xmm1 .rax, .arith op xmm0 xmm1]
    | true, .register n =>
      write [.movsd xmm1 xmm0, .movsd xmm0 (.ofNat n), .arith op xmm0 xmm1]
    | true, .spill =>
      write [.movsd xmm1 xmm0, .pop .rax, .movqToXmm xmm0 .rax, .arith op xmm0 xmm1]
    modify fun d ↦ { d with pool }

/-- The first operand is computed and parked, then the second. -/
def operation (op : BinOp) (leftFirst force : Bool) (first second : Writing Unit) :
    Writing Unit := do
  first
  let h ← park force
  second
  operate op leftFirst h

/-- At an odd number of spills, eight bytes more make the stack pointer a multiple of sixteen. -/
def callNative (address : UInt64) : Writing Unit := do
  if (← get).pool.pendingSpills % 2 = 1 then
    write [.subImm .rsp 8, .movImm .rax address, .call .rax, .addImm .rsp 8]
  else write [.movImm .rax address, .call .rax]

end Writing

/-- Writes the code of a formula, the operands before the operation. -/
def generate (t : FunctionTable) (useDepth : Bool) : Tree → Writing Unit
  | .const v => .write [.movImm .rax v.bits, .movqToXmm xmm0 .rax]
  | .var .x => .write [.movsdLoad xmm0 .rbp (-8)]
  | .var .y => .write [.movsdLoad xmm0 .rbp (-16)]
  | .bin op l r =>
    if Tree.leftFirst useDepth l r then
      .operation op true r.hasCall (generate t useDepth l) (generate t useDepth r)
    else .operation op false l.hasCall (generate t useDepth r) (generate t useDepth l)
  | .call name a => do
    let some address := t.address? name | throw (.unknownFunction ⟨name⟩)
    generate t useDepth a
    Writing.callNative address

/-- The routine for a formula by recursion on its tree, and the records of its making. -/
def routineOf (e : Tree) (t : FunctionTable) (s : Switches) :
    Except EmitError Assembly × Array Log.Record :=
  match (generate t s.useCallDepth e).run ⟨Emitter.prologue.toArray, .new s.useRegisters, #[]⟩ with
  | .error f d => (.error f, d.log)
  | .ok () d =>
    let code := encodeAll (d.code.toList ++ Emitter.epilogue)
    let assembly : Assembly := ⟨code.toArray, d.pool.stats⟩
    (.ok assembly, d.log.push assembly.record)

namespace Emitter

/-- An emitter that has written a draft, with what is parked. -/
def ofDraft (d : Draft) (parked : List Handle) : Emitter := ⟨d.code, d.pool, parked, d.log⟩

/-- Emission comes out as writing does. Without an error it leaves what was parked before. -/
inductive Tracks (parked : List Handle) :
    EStateM.Result EmitError Draft Unit → Emitter × Option EmitError → Prop
  | ok (d : Draft) : Tracks parked (.ok () d) (ofDraft d parked, none)
  | error (f : EmitError) (d : Draft) (left : List Handle) :
      Tracks parked (.error f d) (ofDraft d left, some f)

variable {parked parked' : List Handle} {d : Draft}

theorem tracks_write (is : List Instr) :
    Tracks parked ((Writing.write is).run d) ((ofDraft d parked).emit is, none) :=
  .ok _

theorem tracks_callNative (address : UInt64) :
    Tracks parked ((Writing.callNative address).run d)
      ((ofDraft d parked).emit (callCode address d.pool.pendingSpills), none) := by
  simp only [Writing.callNative, EStateM.run_bind, EStateM.run_get, callCode]
  split <;> exact tracks_write _

theorem run_writing_park (force : Bool) (d : Draft) (parked : List Handle) :
    ∃ h d', (Writing.park force).run d = .ok h d' ∧
      (ofDraft d parked).park force = ofDraft d' (h :: parked) := by
  simp only [Writing.park, EStateM.run_bind, EStateM.run_get, ofDraft, park]
  generalize d.pool.stash force = out
  obtain ⟨_ | _, pool⟩ := out <;> exact ⟨_, _, rfl, rfl⟩

theorem tracks_operate (op : BinOp) (leftFirst : Bool) (h : Handle) :
    Tracks parked ((Writing.operate op leftFirst h).run d)
      ((ofDraft d (h :: parked)).combine op leftFirst) := by
  simp only [Writing.operate, EStateM.run_bind, EStateM.run_get, ofDraft, combine]
  generalize hback : d.pool.unstash h (if leftFirst then 0 else 1) = out
  obtain ⟨back, f | pool⟩ := out
  · exact .error (.pool f) d (h :: parked)
  · obtain ⟨rfl, -⟩ := Pool.unstash_spec hback
    cases leftFirst <;> cases h <;> exact .ok _

/-- What is parked in between may change; the second part starts with what the first one leaves. -/
theorem Tracks.andThen {w w' : Writing Unit} {out : Emitter × Option EmitError}
    {next : Emitter → Emitter × Option EmitError} (h : Tracks parked (w.run d) out)
    (hnext : ∀ d, Tracks parked' (w'.run d) (next (ofDraft d parked))) :
    Tracks parked' ((do w; w').run d) (andThen out next) := by
  rw [EStateM.run_bind]
  generalize w.run d = res at h
  cases h with
  | ok d' => exact hnext d'
  | error f d' left => exact .error f d' left

theorem tracks_operation (op : BinOp) (leftFirst force : Bool) {w w' : Writing Unit}
    {first second : Emitter → Emitter × Option EmitError}
    (hfirst : ∀ d parked, Tracks parked (w.run d) (first (ofDraft d parked)))
    (hsecond : ∀ d parked, Tracks parked (w'.run d) (second (ofDraft d parked))) :
    Tracks parked ((Writing.operation op leftFirst force w w').run d)
      (Emitter.andThen (first (ofDraft d parked)) fun e ↦
        Emitter.andThen (second (e.park force)) fun e ↦ e.combine op leftFirst) := by
  apply (hfirst d parked).andThen
  intro d₁
  obtain ⟨h, d₂, hpark, hemit⟩ := run_writing_park force d₁ parked
  rw [EStateM.run_bind, hpark, hemit]
  -- The second operand leaves the handle of the first one on top.
  apply (hsecond d₂ (h :: parked)).andThen
  intro d₃
  exact tracks_operate op leftFirst h

/-- Emitting the plan of a node writes the code of its formula. -/
theorem tracks_generate (g : Graph) (t : FunctionTable) (useDepth : Bool) (i : Fin g.size)
    (d : Draft) (parked : List Handle) :
    Tracks parked ((generate t useDepth (g.unfold i)).run d)
      ((g.plan (CallAnalysis.run g useDepth) i).emit t (ofDraft d parked)) := by
  induction i using Graph.node_induction generalizing d parked with
  | const i v h =>
      rw [Graph.unfold_const h, Graph.plan_const h]
      exact tracks_write (loadConst v)
  | var i v h =>
      rw [Graph.unfold_var h, Graph.plan_var h]
      cases v <;> exact tracks_write _
  | bin i op l r h ihl ihr =>
      rw [Graph.unfold_bin h, Graph.plan_bin h, generate, Tree.leftFirst_run,
        CallAnalysis.hasCall_run, CallAnalysis.hasCall_run]
      split
      · exact tracks_operation op true _ ihl ihr
      · exact tracks_operation op false _ ihr ihl
  | call i name arg h ih =>
      rw [Graph.unfold_call h, Graph.plan_call h, generate, Plan.emit]
      cases t.address? name with
      | none => exact .error _ d parked
      | some address =>
          apply (ih d parked).andThen
          intro d'
          exact tracks_callNative address

end Emitter

theorem foldl_encode_eq (is : Array Instr) :
    is.foldl (fun bs i ↦ bs.appendList i.encode) #[] = (encodeAll is.toList).toArray := by
  apply Array.toList_inj.1
  rw [← Array.foldl_toList, toList_foldl_encode]
  rfl

theorem assemble_eq_routineOf (r : RootedGraph) (t : FunctionTable) (s : Switches) :
    assemble r t s = routineOf r.tree t s := by
  have htracks := Emitter.tracks_generate r.graph t s.useCallDepth r.root
    ⟨Emitter.prologue.toArray, .new s.useRegisters, #[]⟩ []
  rw [assemble, emitWith_eq, routineOf, RootedGraph.tree]
  change Emitter.Tracks [] _ ((r.graph.plan _ r.root).emit t (.start s)) at htracks
  generalize (r.graph.plan _ r.root).emit t (.start s) = out at htracks
  generalize (generate t s.useCallDepth (r.graph.unfold r.root)).run _ = res at htracks
  cases htracks with
  | error f d left => rfl
  | ok d =>
      have hcode : (d.code.appendList Emitter.epilogue).toList =
          d.code.toList ++ Emitter.epilogue := by simp
      simp only [Emitter.ofDraft, foldl_encode_eq, hcode]

/-- A routine is the one that recursion on the tree of its formula gives: the same code and counts,
the same error, and the same records. So it is the same for all graphs whose roots unfold to one
tree, whatever they share, which nodes stand unused before or behind the root, and in which order
the nodes stand. -/
theorem assembly_is_by_recursion (r : RootedGraph) (t : FunctionTable) (s : Switches) :
    assemble r t s = routineOf r.tree t s ∧
      ∀ r' : RootedGraph, r'.tree = r.tree → assemble r' t s = assemble r t s := by
  refine ⟨assemble_eq_routineOf r t s, fun r' htree ↦ ?_⟩
  rw [assemble_eq_routineOf, assemble_eq_routineOf, htree]

/-- One call that is used twice, and the same formula with two calls in another order, a node before
them that nothing uses and one behind the root. -/
theorem assembly_is_by_recursion_of_shared_call :
    let shared : RootedGraph :=
      ⟨⟨#[.var .x, .call "sin" 0, .bin .sub 1 1], by decide⟩, ⟨2, by decide⟩⟩
    let spread : RootedGraph :=
      ⟨⟨#[.const 7, .var .x, .call "sin" 1, .var .x, .call "sin" 3, .bin .sub 4 2, .var .y],
        by decide⟩, ⟨5, by decide⟩⟩
    spread.tree = shared.tree ∧ ∀ t s, assemble spread t s = assemble shared t s := by
  intro shared spread
  have htree : spread.tree = shared.tree := by rfl
  exact ⟨htree, fun t s ↦ (assembly_is_by_recursion shared t s).2 spread htree⟩

end Code

end Formula
