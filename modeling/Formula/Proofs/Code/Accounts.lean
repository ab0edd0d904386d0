import Formula.Proofs.Code.History
import Formula.Proofs.Graph.Fold

/-!
# What the code of a routine is made of

Each operation parks one value, in a register or on the stack. The instructions that park it, bring
it back and apply the operator take twelve bytes with a register and sixteen with the stack, but
they are written at two different steps. In between, some of them are owed: the bytes written and
the bytes owed for the values that are parked, less those that the counts of the pool stand for,
grow by what a step costs (`Emitter.balance_of_goes`). At the end nothing is owed, and what the
steps cost together is counted on the parts of the formula.
-/

namespace Formula.Code

open X86

/-- How many bytes instructions take. -/
def byteCount (is : List Instr) : Nat := (encodeAll is).length

theorem byteCount_cons (i : Instr) (is : List Instr) :
    byteCount (i :: is) = i.encode.length + byteCount is := by
  simp [byteCount]

@[simp] theorem byteCount_append (is js : List Instr) :
    byteCount (is ++ js) = byteCount is + byteCount js := by
  simp [byteCount]

theorem byteCount_appendList (code : Array Instr) (is : List Instr) :
    byteCount (code.appendList is).toList = byteCount code.toList + byteCount is := by
  simp

theorem byteCount_loadConst (v : Double) : byteCount (Emitter.loadConst v) = 15 := by
  simp [byteCount, Emitter.loadConst, Instr.encode]

theorem byteCount_loadVar (v : Var) : byteCount (Emitter.loadVar v) = 5 := by
  cases v <;> rfl

theorem byteCount_callCode (address : UInt64) (pendingSpills : Nat) :
    byteCount (Emitter.callCode address pendingSpills) =
      12 + 8 * (decide (pendingSpills % 2 = 1)).toNat := by
  have hcall : byteCount [.movImm .rax address, .call .rax] = 12 := by
    simp [byteCount, Instr.encode]
  have hsub : (Instr.subImm .rsp 8).encode.length = 4 := by decide
  have hadd : byteCount [.addImm .rsp 8] = 4 := by decide
  unfold Emitter.callCode
  split
  · next hodd =>
      rw [List.cons_append, byteCount_cons, byteCount_append, hsub, hcall, hadd]
      simp [hodd]
  · next heven => simp [heven, hcall]

namespace Handle

/-- How many bytes are still to come for a parked value. -/
def owed : Handle → Nat
  | register _ => 8
  | spill => 10

/-- How many bytes a parked value takes in all. -/
def charge : Handle → Nat
  | register _ => 12
  | spill => 16

theorem byteCount_park_add_owed (h : Handle) : byteCount (Pool.park h) + h.owed = h.charge := by
  cases h <;> rfl

theorem byteCount_combineCode (op : BinOp) (leftFirst : Bool) (h : Handle) :
    byteCount (Emitter.combineCode op leftFirst h) = h.owed + 4 * leftFirst.toNat := by
  cases h <;> cases leftFirst <;> rfl

end Handle

namespace Emitter

variable {g : Graph} {t : FunctionTable} {a : CallAnalysis} {e e' : Emitter} {s : Step (Fin g.size)}
  {steps : List (Step (Fin g.size))}

/-- The number of pending spills is the number of parked values that are on the stack. -/
def Tallied (e : Emitter) : Prop := e.pool.pendingSpills = e.parked.count .spill

theorem Tallied.of_goes (hgoes : Goes g t a e s e' steps) (h : e.Tallied) : e'.Tallied := by
  unfold Tallied at h ⊢
  cases hgoes with
  | const | var | bin | call | callNative => exact h
  | hold henabled hfree => exact h.trans (List.count_cons_of_ne (by simp)).symm
  | spill hforced =>
      rw [List.count_cons_self, ← h]
      rfl
  | fetch hparked hused =>
      rw [hparked, List.count_cons_of_ne (by simp)] at h
      exact h
  | pop hparked hspills =>
      rw [hparked, List.count_cons_self, hspills] at h
      exact Nat.succ.inj h

/-- A call with an odd number of spills outstanding. -/
def callsAtOddSpills (x : Emitter × Step (Fin g.size)) : Bool :=
  x.2.isCall && decide (x.1.parked.count .spill % 2 = 1)

/-- How many bytes a step takes, but for those of a parked value. -/
def cost (x : Emitter × Step (Fin g.size)) : Nat :=
  15 * (x.2.computes Tree.isConst).toNat + 5 * (x.2.computes Tree.isVar).toNat +
    12 * x.2.isCall.toNat + 8 * (callsAtOddSpills x).toNat + 4 * x.2.isLeftFirst.toNat

theorem cost_eval (e : Emitter) (i : Fin g.size) :
    cost (e, .eval i) =
      15 * (g.unfold i).isConst.toNat + 5 * (g.unfold i).isVar.toNat := rfl

theorem cost_park (e : Emitter) (force : Bool) :
    cost (e, (.park force : Step (Fin g.size))) = 0 := rfl

theorem cost_combine (e : Emitter) (op : BinOp) (leftFirst : Bool) :
    cost (e, (.combine op leftFirst : Step (Fin g.size))) = 4 * leftFirst.toNat :=
  Nat.zero_add _

theorem cost_callNative (e : Emitter) (address : UInt64) :
    cost (e, (.callNative address : Step (Fin g.size))) =
      12 + 8 * (decide (e.parked.count .spill % 2 = 1)).toNat := by
  simp [cost, callsAtOddSpills, Step.computes, Step.isCall, Step.isLeftFirst]

theorem sum_cost (done : List (Emitter × Step (Fin g.size))) :
    (done.map cost).sum =
      15 * done.countP (·.2.computes Tree.isConst) + 5 * done.countP (·.2.computes Tree.isVar) +
        12 * done.countP (·.2.isCall) + 8 * done.countP callsAtOddSpills +
        4 * done.countP (·.2.isLeftFirst) := by
  unfold cost
  simp only [List.sum_map_add, List.sum_map_mul_left, sum_map_toNat]

/-- The bytes that are written or owed, less those that the counts of the pool stand for. -/
def balance (e : Emitter) : Int :=
  byteCount e.code.toList + (e.parked.map Handle.owed).sum -
    (12 * e.pool.stats.registersHit + 16 * e.pool.stats.stackSpills)

theorem balance_emit (e : Emitter) (is : List Instr) :
    (e.emit is).balance = e.balance + byteCount is := by
  simp only [balance, emit, byteCount_appendList]
  omega

/-- A step changes the balance by what it costs, since a value is charged for when it is parked and
what is owed for it is written when it is brought back. -/
theorem balance_of_goes (hgoes : Goes g t a e s e' steps) (h : e.Tallied) :
    e'.balance = e.balance + cost (e, s) := by
  cases hgoes with
  | const hnode =>
      rw [balance_emit, byteCount_loadConst, cost_eval, Graph.unfold_const hnode]
      rfl
  | var hnode =>
      rw [balance_emit, byteCount_loadVar, cost_eval, Graph.unfold_var hnode]
      rfl
  | bin hnode =>
      rw [cost_eval, Graph.unfold_bin hnode]
      exact (add_zero _).symm
  | call hnode haddr =>
      rw [cost_eval, Graph.unfold_call hnode]
      exact (add_zero _).symm
  | @hold r henabled hfree =>
      have hcharge := (Handle.register r).byteCount_park_add_owed
      simp only [balance, byteCount_appendList, List.map_cons, List.sum_cons,
        Pool.take, Handle.charge, cost_park] at hcharge ⊢
      omega
  | spill hforced =>
      have hcharge := Handle.spill.byteCount_park_add_owed
      simp only [balance, byteCount_appendList, List.map_cons, List.sum_cons,
        Pool.spilled, Pool.countSpill, Handle.charge, cost_park] at hcharge ⊢
      omega
  | fetch hparked hused =>
      simp only [balance, hparked, byteCount_appendList,
        Handle.byteCount_combineCode, List.map_cons, List.sum_cons, Pool.giveBack, cost_combine]
      omega
  | pop hparked hspills =>
      simp only [balance, hparked, byteCount_appendList,
        Handle.byteCount_combineCode, List.map_cons, List.sum_cons, cost_combine]
      omega
  | callNative address =>
      rw [balance_emit, byteCount_callCode, cost_callNative, h]

theorem parked_of_goes (hgoes : Goes g t a e s e' steps) :
    e'.pool.stats.registersHit + e'.pool.stats.stackSpills =
      e.pool.stats.registersHit + e.pool.stats.stackSpills + s.isPark.toNat := by
  cases hgoes with
  | const | var | bin | call | fetch | pop | callNative => rfl
  | hold henabled hfree => exact Nat.add_right_comm _ 1 _
  | spill hforced => rfl

/-- The pool is switched off and has given out no register. -/
structure Unregistered (e : Emitter) : Prop where
  off : e.pool.enabled = false
  hits : e.pool.stats.registersHit = 0
  top : e.pool.stats.maxReg = 0

theorem Unregistered.of_goes (hgoes : Goes g t a e s e' steps) (h : e.Unregistered) :
    e'.Unregistered := by
  cases hgoes with
  | hold henabled hfree => exact absurd henabled (by simp [h.off])
  | const | var | bin | call | spill | fetch | pop | callNative => exact ⟨h.off, h.hits, h.top⟩

end Emitter

variable {r : RootedGraph} {t : FunctionTable} {s : Switches} {asm : Assembly}

theorem parked_of_assemble (h : (assemble r t s).1 = .ok asm) :
    asm.stats.registersHit + asm.stats.stackSpills = r.tree.count Tree.isBin := by
  obtain ⟨e, hrun, -, hstats, -⟩ := exists_run_of_assemble h
  have hsum := Emitter.sum_history (P := fun _ ↦ True)
    (fun e ↦ (e.pool.stats.registersHit + e.pool.stats.stackSpills : Nat)) (·.2.isPark.toNat)
    (fun _ _ _ _ _ _ ↦ trivial)
    (fun _ _ _ _ hgoes _ ↦ congrArg Nat.cast (Emitter.parked_of_goes hgoes)) trivial hrun
  rw [sum_map_toNat, Emitter.countP_isPark hrun] at hsum
  have hstart : (Emitter.start s).pool.stats.registersHit = 0 ∧
      (Emitter.start s).pool.stats.stackSpills = 0 := ⟨rfl, rfl⟩
  rw [hstart.1, hstart.2] at hsum
  rw [hstats, RootedGraph.tree]
  omega

theorem unregistered_of_assemble (h : (assemble r t s).1 = .ok asm)
    (hoff : s.useRegisters = false) : asm.stats.registersHit = 0 ∧ asm.stats.maxReg = 0 := by
  obtain ⟨e, hrun, -, hstats, -⟩ := exists_run_of_assemble h
  have hstart : (Emitter.start s).Unregistered := ⟨hoff, rfl, rfl⟩
  obtain ⟨hend, -⟩ := Emitter.forall_history
    (fun _ _ _ _ hgoes ↦ Emitter.Unregistered.of_goes hgoes) hstart hrun
  exact hstats ▸ ⟨hend.hits, hend.top⟩

theorem size_code_of_assemble (h : (assemble r t s).1 = .ok asm) :
    asm.code.size = 24 + 15 * r.tree.count Tree.isConst + 5 * r.tree.count Tree.isVar +
      12 * r.tree.count Tree.isCall + 8 * (history r t s).countP Emitter.callsAtOddSpills +
      12 * asm.stats.registersHit + 16 * asm.stats.stackSpills +
      4 * (history r t s).countP (·.2.isLeftFirst) := by
  obtain ⟨e, hrun, hparked, hstats, hcode⟩ := exists_run_of_assemble h
  have hsize : asm.code.size = byteCount e.code.toList + byteCount Emitter.epilogue := by
    rw [← Array.length_toList, hcode]
    exact byteCount_append e.code.toList Emitter.epilogue
  have htallied : (Emitter.start s).Tallied := rfl
  have hsum := Emitter.sum_history Emitter.balance Emitter.cost
    (fun _ _ _ _ hgoes ↦ Emitter.Tallied.of_goes hgoes)
    (fun _ _ _ _ hgoes ↦ Emitter.balance_of_goes hgoes) htallied hrun
  rw [Emitter.sum_cost, Emitter.countP_computes hrun, Emitter.countP_computes hrun,
    Emitter.countP_isCall hrun] at hsum
  have hstart : (Emitter.start s).balance = byteCount Emitter.prologue := rfl
  have hend : e.balance = byteCount e.code.toList -
      (12 * asm.stats.registersHit + 16 * asm.stats.stackSpills) := by
    rw [Emitter.balance, hparked, hstats]
    simp
  have hframe : byteCount Emitter.prologue + byteCount Emitter.epilogue = 24 := by decide
  rw [hstart, hend] at hsum
  rw [hsize, RootedGraph.tree, history]
  omega

/-- The counts and the size of a routine follow from the parts of its formula: each operation parks
one value, and the code is a frame of 24 bytes with so many bytes for each part. A routine for what
folding leaves can be assembled as well; it parks no more values and makes no more calls. -/
theorem assembly_accounts_for_tree (h : (assemble r t s).1 = .ok asm) :
    asm.stats.registersHit + asm.stats.stackSpills = r.tree.count Tree.isBin ∧
      (s.useRegisters = false → asm.stats.registersHit = 0 ∧ asm.stats.maxReg = 0) ∧
      asm.code.size = 24 + 15 * r.tree.count Tree.isConst + 5 * r.tree.count Tree.isVar +
        12 * r.tree.count Tree.isCall + 8 * (history r t s).countP Emitter.callsAtOddSpills +
        12 * asm.stats.registersHit + 16 * asm.stats.stackSpills +
        4 * (history r t s).countP (·.2.isLeftFirst) ∧
      ∀ t', ∃ asm', (assemble (r.fold t') t s).1 = .ok asm' ∧
        asm'.stats.registersHit + asm'.stats.stackSpills ≤
          asm.stats.registersHit + asm.stats.stackSpills ∧
        (r.fold t').tree.count Tree.isCall ≤ r.tree.count Tree.isCall := by
  refine ⟨parked_of_assemble h, unregistered_of_assemble h, size_code_of_assemble h, fun t' ↦ ?_⟩
  have hknown : (r.fold t').tree.Known t := r.tree_fold t' ▸ (known_of_assemble h).fold t'
  obtain ⟨asm', hasm', -⟩ := assemble_of_known s hknown
  refine ⟨asm', hasm', ?_, ?_⟩
  · rw [parked_of_assemble hasm', parked_of_assemble h, r.tree_fold]
    exact Tree.count_isBin_fold_le t' r.tree
  · rw [r.tree_fold]
    exact Tree.count_isCall_fold_le t' r.tree

/-- Two occurrences of one call and a product that can be folded, without the registers. -/
theorem assembly_accounts_for_tree_of_shared_call :
    let r : RootedGraph :=
      ⟨⟨#[.const 2, .const 3, .bin .mul 0 1, .var .x, .call "next" 3, .bin .sub 4 4,
        .bin .add 5 2], by decide⟩, ⟨6, by decide⟩⟩
    let t : FunctionTable := ⟨[("next", ⟨1, .abs⟩)]⟩
    let s : Switches := { useRegisters := false }
    ∃ asm, (assemble r t s).1 = .ok asm ∧ asm.stats.registersHit = 0 ∧ asm.stats.stackSpills = 3 ∧
      asm.code.size = 136 + 8 * (history r t s).countP Emitter.callsAtOddSpills +
        4 * (history r t s).countP (·.2.isLeftFirst) ∧
      ∃ asm', (assemble (r.fold t) t s).1 = .ok asm' ∧ asm'.stats.stackSpills ≤ 3 := by
  intro r t s
  have hknown : r.tree.Known t := Tree.firstUnknown?_eq_none_iff.1 (by decide)
  obtain ⟨asm, hasm, -⟩ := assemble_of_known s hknown
  obtain ⟨hparked, hoff, hsize, hfold⟩ := assembly_accounts_for_tree hasm
  have hcounts : r.tree.count Tree.isBin = 3 ∧ r.tree.count Tree.isConst = 2 ∧
      r.tree.count Tree.isVar = 2 ∧ r.tree.count Tree.isCall = 2 := by decide
  obtain ⟨hbin, hconst, hvar, hcall⟩ := hcounts
  obtain ⟨hhits, -⟩ := hoff rfl
  obtain ⟨asm', hasm', hless, -⟩ := hfold t
  exact ⟨asm, hasm, hhits, by omega, by omega, asm', hasm', by omega⟩

end Formula.Code
