import Formula.Proofs.Code.Plan
import Formula.Proofs.Code.Pool

/-!
# The instructions of a plan

Once a part of a formula is computed, the pool holds what it held before, only its counts have
changed. So the instructions of a plan depend on the registers in use and on the number of pending
spills at its start, and `Plan.code` gives them without an emitter. A plan whose functions all have
an entry is emitted as its code (`Plan.emit_of_known`); any other ends with the name of the first
function that has none (`Plan.emit_of_firstUnknown?`).
-/

namespace Formula.Code

open X86

namespace Pool

/-- Two pools that differ in their counts only. -/
structure SameUse (p q : Pool) : Prop where
  enabled : p.enabled = q.enabled
  used : p.used = q.used
  pendingSpills : p.pendingSpills = q.pendingSpills

namespace SameUse

variable {p q r : Pool}

theorem refl (p : Pool) : p.SameUse p := ⟨rfl, rfl, rfl⟩

theorem trans (h : p.SameUse q) (h' : q.SameUse r) : p.SameUse r :=
  ⟨h.enabled.trans h'.enabled, h.used.trans h'.used, h.pendingSpills.trans h'.pendingSpills⟩

end SameUse

/-- A value is parked on the stack or in a free register of the pool. -/
theorem stash_cases (p : Pool) (force : Bool) :
    p.stash force = (.spill, p.spilled) ∨
      ∃ r ∈ registers, force = false ∧ p.isUsed r = false ∧
        p.stash force = (.register r, p.take r) := by
  rcases p.stash_spec force with ⟨r, hforce, -, hfree, hstash⟩ | ⟨-, hstash⟩
  · obtain ⟨hlow, hunused, -⟩ := free?_eq_some_iff.1 hfree
    exact .inr ⟨r, mem_registers_iff.2 hlow, hforce, hunused, hstash⟩
  · exact .inl hstash

theorem SameUse.stash {p q : Pool} (h : p.SameUse q) (force : Bool) :
    (p.stash force).1 = (q.stash force).1 ∧ (p.stash force).2.SameUse (q.stash force).2 := by
  obtain ⟨henabled, hused, hspills⟩ := h
  have hfree : p.free? = q.free? := by simp [free?, isUsed, hused]
  cases force with
  | true => exact ⟨rfl, henabled, hused, by simp [Pool.stash, countSpill, hspills]⟩
  | false =>
      cases hr : if q.enabled then q.free? else none with
      | none =>
          simp only [Pool.stash, acquire, henabled, hfree, hr, Bool.false_eq_true, if_false]
          exact ⟨trivial, henabled, hused, congrArg (· + 1) hspills⟩
      | some r =>
          simp only [Pool.stash, acquire, henabled, hfree, hr, Bool.false_eq_true, if_false]
          exact ⟨trivial, henabled, by simp [take, hused], hspills⟩

/-- The instructions that bring a parked value back. -/
def restore (h : Handle) (dest : Nat) : List Instr :=
  match h with
  | .register n => [.movsd (Xmm.ofNat dest) (Xmm.ofNat n)]
  | .spill => [.pop .rax, .movqToXmm (Xmm.ofNat dest) .rax]

/-- A value that was parked can be brought back, and then the pool is as it was before. -/
theorem unstash_of_sameUse {p q : Pool} {force : Bool} (h : q.SameUse (p.stash force).2)
    {dest : Nat} (hdest : dest ≤ 1) :
    ∃ q', q.unstash (p.stash force).1 dest = (restore (p.stash force).1 dest, .ok q') ∧
      q'.SameUse p := by
  have hle : ¬ 1 < dest := by omega
  rcases p.stash_cases force with hs | ⟨r, hr, -, hfree, hs⟩
  · rw [hs] at h ⊢
    have hspills : q.pendingSpills = p.pendingSpills + 1 := h.pendingSpills
    refine ⟨{ q with pendingSpills := p.pendingSpills }, ?_, h.enabled, h.used, rfl⟩
    simp [unstash, hle, hspills, restore]
  · rw [hs] at h ⊢
    have hlow := mem_registers_iff.1 hr
    have hused : q.used = p.used.set r.val true r.isLt := h.used
    refine ⟨{ q with used := p.used }, ?_, h.enabled, rfl, h.pendingSpills⟩
    have hback : p.used.set r.val false r.isLt = p.used := by
      have hval : p.used[r.val] = false := hfree
      rw [← hval, Vector.set_getElem_self]
    simp [unstash, hle, restore, release, hlow, isUsed, Vector.get_eq_getElem, hback, hused]

theorem unstash_spec {p q : Pool} {h : Handle} {dest : Nat} {is : List Instr}
    (hok : p.unstash h dest = (is, .ok q)) :
    is = restore h dest ∧
      ((∃ r : Xmm, h = .register r ∧ p.isUsed r = true ∧ q = p.giveBack r) ∨
        ∃ k, h = .spill ∧ p.pendingSpills = k + 1 ∧ q = { p with pendingSpills := k }) := by
  have hdest : ¬ 1 < dest := by
    intro hlt
    simp [unstash, hlt] at hok
  rcases p.unstash_cases h dest with ⟨is', r, rfl, hused, hback⟩ | ⟨is', k, rfl, hspills, hback⟩ |
    ⟨is', f, hback⟩
  · cases hback.symm.trans hok
    refine ⟨?_, .inl ⟨r, rfl, hused, rfl⟩⟩
    simpa [unstash, hdest, restore] using (congrArg Prod.fst hback).symm
  · cases hback.symm.trans hok
    refine ⟨?_, .inr ⟨k, rfl, hspills, rfl⟩⟩
    simpa [unstash, hdest, hspills, restore] using (congrArg Prod.fst hback).symm
  · cases hback.symm.trans hok

end Pool

/-- The instructions that bring the parked operand back and apply an operator. -/
def Emitter.combineCode (op : BinOp) (leftFirst : Bool) (h : Handle) : List Instr :=
  (if leftFirst then [.movsd xmm1 xmm0] else []) ++
    Pool.restore h (if leftFirst then 0 else 1) ++ [.arith op xmm0 xmm1]

theorem Emitter.combine_of_unstash {e : Emitter} {op : BinOp} {leftFirst : Bool} {h : Handle}
    {parked : List Handle} {q : Pool} (hparked : e.parked = h :: parked)
    (hback : e.pool.unstash h (if leftFirst then 0 else 1) =
      (Pool.restore h (if leftFirst then 0 else 1), .ok q)) :
    e.combine op leftFirst =
      (⟨e.code.appendList (combineCode op leftFirst h), q, parked, e.log⟩, none) := by
  obtain ⟨code, pool, _, log⟩ := e
  subst hparked
  simp only at hback
  simp [combine, hback, combineCode]

namespace Plan

def code (t : FunctionTable) : Plan → Pool → List Instr
  | const v, _ => Emitter.loadConst v
  | var v, _ => Emitter.loadVar v
  | bin op leftFirst force first second, p =>
    first.code t p ++ (Pool.park (p.stash force).1 ++
      (second.code t (p.stash force).2 ++ Emitter.combineCode op leftFirst (p.stash force).1))
  | call name arg, p =>
    arg.code t p ++ Emitter.callCode ((t.address? name).getD 0) p.pendingSpills

theorem code_congr (t : FunctionTable) (P : Plan) {p q : Pool} (h : p.SameUse q) :
    P.code t p = P.code t q := by
  induction P generalizing p q with
  | const v => rfl
  | var v => rfl
  | bin op leftFirst force first second ih₁ ih₂ =>
      obtain ⟨hhandle, hpool⟩ := h.stash force
      simp only [code, ih₁ h, ih₂ hpool, hhandle]
  | call name arg ih => simp only [code, ih h, h.pendingSpills]

theorem emit_of_known {t : FunctionTable} {P : Plan} (h : P.tree.Known t) (e : Emitter) :
    ∃ e', P.emit t e = (e', none) ∧ e'.code.toList = e.code.toList ++ P.code t e.pool ∧
      e'.parked = e.parked ∧ e'.pool.SameUse e.pool := by
  induction P generalizing e with
  | const v => exact ⟨_, rfl, by simp [Emitter.emit, code], rfl, .refl _⟩
  | var v => exact ⟨_, rfl, by simp [Emitter.emit, code], rfl, .refl _⟩
  | bin op leftFirst force first second ih₁ ih₂ =>
      obtain ⟨hfirst, hsecond⟩ := (known_tree_bin t op leftFirst force first second).1 h
      obtain ⟨e₁, hemit₁, hcode₁, hparked₁, hpool₁⟩ := ih₁ hfirst e
      obtain ⟨e₂, hemit₂, hcode₂, hparked₂, hpool₂⟩ := ih₂ hsecond (e₁.park force)
      obtain ⟨hhandle, hstash⟩ := hpool₁.stash force
      -- The second operand leaves the handle of the first one on top, and its place in use.
      have hdest : (if leftFirst then 0 else 1) ≤ 1 := by cases leftFirst <;> decide
      obtain ⟨q, hback, hq⟩ := Pool.unstash_of_sameUse hpool₂ hdest
      have htop : e₂.parked = (e₁.pool.stash force).1 :: e₁.parked := hparked₂
      have hcombine : e₂.combine op leftFirst = _ := Emitter.combine_of_unstash htop hback
      refine ⟨⟨e₂.code.appendList (Emitter.combineCode op leftFirst (e₁.pool.stash force).1), q,
        e₁.parked, e₂.log⟩, ?_, ?_, hparked₁, hq.trans hpool₁⟩
      · simp only [emit, hemit₁, hemit₂, Emitter.andThen, hcombine]
      · have hpark : (e₁.park force).code.toList =
            e₁.code.toList ++ Pool.park (e₁.pool.stash force).1 := by simp [Emitter.park]
        have hrest : second.code t (e₁.park force).pool = second.code t (e.pool.stash force).2 :=
          code_congr t second hstash
        simp [code, hcode₂, hpark, hcode₁, hrest, hhandle]
  | call name arg ih =>
      obtain ⟨e₁, hemit₁, hcode₁, hparked₁, hpool₁⟩ := ih h.2 e
      obtain ⟨f, hf⟩ := (t.contains_eq_true_iff name).1 h.1
      have haddr := FunctionTable.address?_of_get? hf
      refine ⟨e₁.emit (Emitter.callCode f.address e₁.pool.pendingSpills), ?_, ?_, hparked₁, hpool₁⟩
      · simp [emit, haddr, hemit₁, Emitter.andThen]
      · simp [Emitter.emit, code, hcode₁, haddr, hpool₁.pendingSpills]

/-- The first function without an entry, in the order of emission. -/
def firstUnknown? (t : FunctionTable) : Plan → Option String
  | const _ | var _ => none
  | bin _ _ _ first second => (first.firstUnknown? t).or (second.firstUnknown? t)
  | call name arg => if t.contains name then arg.firstUnknown? t else some name

theorem firstUnknown?_eq_none_iff {t : FunctionTable} {P : Plan} :
    P.firstUnknown? t = none ↔ P.tree.Known t := by
  induction P with
  | const v => simp [firstUnknown?, tree, Tree.Known]
  | var v => simp [firstUnknown?, tree, Tree.Known]
  | bin op leftFirst force first second ih₁ ih₂ =>
      rw [firstUnknown?, Option.or_eq_none_iff, ih₁, ih₂, known_tree_bin]
  | call name arg ih =>
      rw [firstUnknown?, tree, Tree.Known, ← ih]
      cases t.contains name <;> simp

/-- Emission stops at the first function without an entry. -/
theorem emit_of_firstUnknown? {t : FunctionTable} {P : Plan} {name : String}
    (h : P.firstUnknown? t = some name) (e : Emitter) :
    ∃ e', P.emit t e = (e', some (.unknownFunction ⟨name⟩)) := by
  induction P generalizing e with
  | const v => cases h
  | var v => cases h
  | bin op leftFirst force first second ih₁ ih₂ =>
      rw [firstUnknown?] at h
      cases hfirst : first.firstUnknown? t with
      | none =>
          rw [hfirst, Option.none_or] at h
          obtain ⟨e₁, hemit₁, -⟩ := emit_of_known (firstUnknown?_eq_none_iff.1 hfirst) e
          obtain ⟨e₂, hemit₂⟩ := ih₂ h (e₁.park force)
          exact ⟨e₂, by simp only [emit, hemit₁, hemit₂, Emitter.andThen]⟩
      | some other =>
          rw [hfirst, Option.some_or] at h
          obtain ⟨e₁, hemit₁⟩ := ih₁ (hfirst.trans h) e
          exact ⟨e₁, by simp only [emit, hemit₁, Emitter.andThen]⟩
  | call other arg ih =>
      rw [firstUnknown?] at h
      split at h
      · next hother =>
          obtain ⟨f, hf⟩ := (t.contains_eq_true_iff other).1 hother
          obtain ⟨e₁, hemit₁⟩ := ih h e
          refine ⟨e₁, ?_⟩
          simp only [emit, FunctionTable.address?_of_get? hf, hemit₁, Emitter.andThen]
      · next hother =>
          cases h
          have hnone : t.address? name = none := by
            simpa [FunctionTable.contains, FunctionTable.address?] using hother
          exact ⟨e, by simp only [emit, hnone]⟩

end Plan

def routineCode (t : FunctionTable) (s : Switches) (P : Plan) : List Instr :=
  Emitter.prologue ++ (P.code t (.new s.useRegisters) ++ Emitter.epilogue)

theorem toList_foldl_encode (bs : Array UInt8) (is : List Instr) :
    (is.foldl (fun bs i ↦ bs.appendList i.encode) bs).toList = bs.toList ++ encodeAll is := by
  induction is generalizing bs with
  | nil => simp
  | cons i is ih =>
      rw [List.foldl_cons, ih]
      simp

def planOf (r : RootedGraph) (s : Switches) : Plan :=
  r.graph.plan (CallAnalysis.run r.graph s.useCallDepth) r.root

theorem tree_planOf (r : RootedGraph) (s : Switches) : (planOf r s).tree = r.tree :=
  r.graph.tree_plan _ r.root

theorem safe_planOf (r : RootedGraph) (s : Switches) : (planOf r s).Safe :=
  r.graph.safe_plan (fun i h ↦ (CallAnalysis.hasCall_run r.graph s.useCallDepth i).trans h) r.root

theorem emitWith_eq (r : RootedGraph) (t : FunctionTable) (s : Switches) (a : CallAnalysis) :
    emitWith r t s a = (r.graph.plan a r.root).emit t (Emitter.start s) := by
  have hend : ∀ e, Emitter.run r.graph t a e [] = (e, none) := fun _ ↦ Emitter.run_nil
  rw [emitWith, Emitter.run_eval]
  obtain ⟨e, _ | f⟩ := (r.graph.plan a r.root).emit t (Emitter.start s)
  · exact hend e
  · rfl

/-- The routine for a formula with an analysis that is given, right or wrong. -/
def assembleWith (r : RootedGraph) (t : FunctionTable) (s : Switches) (a : CallAnalysis) :
    Except EmitError Assembly × Array Log.Record :=
  match emitWith r t s a with
  | (e, some f) => (.error f, e.log)
  | (e, none) =>
    let code := (e.code.appendList Emitter.epilogue).foldl (fun bs i ↦ bs.appendList i.encode) #[]
    let assembly : Assembly := ⟨code, e.pool.stats⟩
    (.ok assembly, e.log.push assembly.record)

theorem assembleWith_run (r : RootedGraph) (t : FunctionTable) (s : Switches) :
    assembleWith r t s (CallAnalysis.run r.graph s.useCallDepth) = assemble r t s := rfl

theorem assembleWith_of_known {r : RootedGraph} {t : FunctionTable} (s : Switches)
    (a : CallAnalysis) (h : r.tree.Known t) :
    ∃ asm, (assembleWith r t s a).1 = .ok asm ∧
      asm.code.toList = encodeAll (routineCode t s (r.graph.plan a r.root)) := by
  have hknown : (r.graph.plan a r.root).tree.Known t := r.graph.tree_plan a r.root ▸ h
  obtain ⟨e, hemit, hcode, -⟩ := Plan.emit_of_known hknown (Emitter.start s)
  have hwith := (emitWith_eq r t s a).trans hemit
  refine ⟨_, by rw [assembleWith, hwith], ?_⟩
  rw [← Array.foldl_toList, toList_foldl_encode]
  simp [hcode, routineCode, Emitter.start]

theorem assembleWith_of_firstUnknown? {r : RootedGraph} {t : FunctionTable} {s : Switches}
    {a : CallAnalysis} {name : String}
    (h : (r.graph.plan a r.root).firstUnknown? t = some name) :
    (assembleWith r t s a).1 = .error (.unknownFunction ⟨name⟩) := by
  obtain ⟨e, hemit⟩ := Plan.emit_of_firstUnknown? h (Emitter.start s)
  rw [assembleWith, (emitWith_eq r t s a).trans hemit]

theorem assemble_of_known {r : RootedGraph} {t : FunctionTable} (s : Switches)
    (h : r.tree.Known t) :
    ∃ asm, (assemble r t s).1 = .ok asm ∧
      asm.code.toList = encodeAll (routineCode t s (planOf r s)) :=
  assembleWith_of_known s _ h

theorem assemble_of_firstUnknown? {r : RootedGraph} {t : FunctionTable} {s : Switches}
    {name : String} (h : (planOf r s).firstUnknown? t = some name) :
    (assemble r t s).1 = .error (.unknownFunction ⟨name⟩) :=
  assembleWith_of_firstUnknown? h

theorem assemble_of_not_known {r : RootedGraph} {t : FunctionTable} (s : Switches)
    (h : ¬ r.tree.Known t) :
    ∃ name, (assemble r t s).1 = .error (.unknownFunction ⟨name⟩) := by
  rw [← tree_planOf r s, ← Plan.firstUnknown?_eq_none_iff, ← ne_eq, Option.ne_none_iff_exists'] at h
  obtain ⟨name, hname⟩ := h
  exact ⟨name, assemble_of_firstUnknown? hname⟩

theorem known_of_assemble {r : RootedGraph} {t : FunctionTable} {s : Switches} {asm : Assembly}
    (h : (assemble r t s).1 = .ok asm) : r.tree.Known t := by
  by_contra hknown
  obtain ⟨name, herr⟩ := assemble_of_not_known s hknown
  rw [herr] at h
  cases h

theorem toList_code_of_assemble {r : RootedGraph} {t : FunctionTable} {s : Switches}
    {asm : Assembly} (h : (assemble r t s).1 = .ok asm) :
    asm.code.toList = encodeAll (routineCode t s (planOf r s)) := by
  obtain ⟨asm', hasm, hcode⟩ := assemble_of_known s (known_of_assemble h)
  rw [hasm] at h
  cases h
  exact hcode

end Formula.Code
