import Formula.Proofs.Code.Scheduling

/-!
# The registers of a formula without calls

The pool gives out the lowest free register, and values are brought back in the reverse order of
parking. So at every moment the registers in use are the lowest ones (`Pool.Filled`), whatever the
formula. Without calls the right operand comes first and only the left operand is computed while a
value is parked, so the number of registers in use tells how many left operands lead to a part,
until there are no more registers. `Plan.handles` lists the places in which a plan parks its values,
and the counts of the pool are those of this list (`Plan.stats_emit`).
-/

namespace Formula

/-- For each operation, in the order in which they park a value, how many left operands lead to
it. -/
def Tree.leftDepths : Tree → List Nat
  | const _ | var _ => []
  | bin _ l r => r.leftDepths ++ 0 :: l.leftDepths.map (· + 1)
  | call _ a => a.leftDepths

/-- There is an operation for each number of left operands up to the greatest. -/
theorem Tree.mem_leftDepths_of_le {e : Tree} {m n : Nat} (hn : n ∈ e.leftDepths) (hmn : m ≤ n) :
    m ∈ e.leftDepths := by
  induction e generalizing m n with
  | const v => cases hn
  | var v => cases hn
  | bin op l r ihl ihr =>
      rw [leftDepths, List.mem_append, List.mem_cons, List.mem_map] at hn ⊢
      rcases hn with hn | rfl | ⟨k, hk, rfl⟩
      · exact .inl (ihr hn hmn)
      · exact .inr (.inl (Nat.le_zero.1 hmn))
      · cases m with
        | zero => exact .inr (.inl rfl)
        | succ m => exact .inr (.inr ⟨m, ihl hk (Nat.le_of_succ_le_succ hmn), rfl⟩)
  | call name a ih => exact ih hn hmn

namespace Code

open X86

namespace Handle

/-- Where the right operand of an operation is parked, if `d` left operands lead to it. -/
def atDepth (d : Nat) : Handle := if d ≤ 5 then .register (2 + d) else .spill

theorem atDepth_eq_register_iff {d n : Nat} : atDepth d = .register n ↔ d ≤ 5 ∧ 2 + d = n := by
  unfold atDepth
  split <;> simp_all

def isRegister : Handle → Bool
  | register _ => true
  | spill => false

theorem isRegister_atDepth (d : Nat) : (atDepth d).isRegister = decide (d ≤ 5) := by
  unfold atDepth
  split <;> simp_all [isRegister]

/-- The parked values, the last one first. The `k` that are in registers took the lowest ones in
turn. -/
inductive Piled : List Handle → Nat → Prop
  | nil : Piled [] 0
  | register {hs : List Handle} {k : Nat} (h : Piled hs k) : Piled (.register (2 + k) :: hs) (k + 1)
  | spill {hs : List Handle} {k : Nat} (h : Piled hs k) : Piled (.spill :: hs) k

end Handle

namespace Pool

/-- The registers in use are the lowest `k` of the pool. -/
structure Filled (p : Pool) (k : Nat) : Prop where
  le : k ≤ 6
  used : ∀ r, p.isUsed r = true ↔ 2 ≤ r.val ∧ r.val < 2 + k

variable {p q : Pool} {k : Nat} {r : Xmm}

theorem filled_new (enabled : Bool) : (new enabled).Filled 0 := by
  refine ⟨Nat.zero_le 6, fun r ↦ iff_of_false ?_ (by omega)⟩
  simp [isUsed, new, Vector.get_eq_getElem]

theorem Filled.of_used_eq (h : p.Filled k) (hused : q.used = p.used) : q.Filled k :=
  ⟨h.le, fun r ↦ by rw [← h.used r, isUsed, isUsed, hused]⟩

theorem Filled.isUsed_eq_false_iff (h : p.Filled k) :
    p.isUsed r = false ↔ ¬ (2 ≤ r.val ∧ r.val < 2 + k) := by
  rw [← h.used r, Bool.not_eq_true]

theorem Filled.free?_eq_some_iff (h : p.Filled k) : p.free? = some r ↔ r.val = 2 + k := by
  rw [Pool.free?_eq_some_iff, h.isUsed_eq_false_iff]
  constructor
  · rintro ⟨hlow, hunused, hbelow⟩
    by_contra hne
    -- All registers below a free one are in use, also the one behind those that are.
    have hnext : 2 + k < r.val := by omega
    have hused := (h.used _).1 (hbelow ⟨2 + k, hnext.trans r.2⟩ (Nat.le_add_right 2 k) hnext)
    exact lt_irrefl _ hused.2
  · intro hr
    refine ⟨by omega, by omega, fun s hs hlt ↦ (h.used s).2 ⟨hs, hr ▸ hlt⟩⟩

theorem Filled.free?_eq_none_iff (h : p.Filled k) : p.free? = none ↔ k = 6 := by
  have hle := h.le
  rw [Option.eq_none_iff_forall_ne_some]
  constructor
  · intro hnone
    by_contra hne
    exact hnone ⟨2 + k, by omega⟩ (h.free?_eq_some_iff.2 rfl)
  · rintro rfl r hsome
    exact r.2.ne (h.free?_eq_some_iff.1 hsome)

theorem Filled.take (h : p.Filled k) (hr : r.val = 2 + k) : (p.take r).Filled (k + 1) := by
  have hlt := r.2
  refine ⟨by omega, fun s ↦ ?_⟩
  rw [isUsed_take, Bool.or_eq_true, decide_eq_true_iff, h.used s, Fin.ext_iff]
  omega

theorem Filled.giveBack (h : p.Filled (k + 1)) (hr : r.val = 2 + k) : (p.giveBack r).Filled k := by
  have hle := h.le
  refine ⟨by omega, fun s ↦ ?_⟩
  rw [isUsed_giveBack, Bool.and_eq_true, Bool.not_eq_true', decide_eq_false_iff_not, h.used s,
    Fin.ext_iff]
  omega

/-- Below `d` left operands a value goes to the next register, as long as there is one. -/
theorem Filled.stash {d : Nat} (h : p.Filled (min d 6)) (hon : p.enabled = true) :
    (p.stash false).1 = .atDepth d ∧ (p.stash false).2.Filled (min (d + 1) 6) ∧
      (p.stash false).2.enabled = true := by
  rcases p.stash_spec false with ⟨r, -, -, hfree, hstash⟩ | ⟨hspill, hstash⟩
  · have hr := h.free?_eq_some_iff.1 hfree
    have hd : d ≤ 5 := by omega
    rw [min_eq_left (by omega)] at h hr
    rw [hstash, min_eq_left (by omega), Handle.atDepth, if_pos hd, hr]
    exact ⟨rfl, h.take hr, hon⟩
  · have hfull : p.free? = none := by simpa [hon] using hspill
    have hd := h.free?_eq_none_iff.1 hfull
    rw [hstash, min_eq_right (by omega), Handle.atDepth, if_neg (by omega)]
    exact ⟨rfl, hd ▸ h.of_used_eq rfl, hon⟩

end Pool

namespace Emitter

variable {g : Graph} {t : FunctionTable} {a : CallAnalysis} {e e' : Emitter} {s : Step (Fin g.size)}
  {steps : List (Step (Fin g.size))}

/-- The registers of the parked values are the lowest ones, from the last parked to the first. -/
def Orderly (e : Emitter) : Prop := ∃ k, Handle.Piled e.parked k ∧ e.pool.Filled k

theorem Orderly.of_goes (hgoes : Goes g t a e s e' steps) (h : e.Orderly) : e'.Orderly := by
  obtain ⟨k, hpiled, hfilled⟩ := h
  cases hgoes with
  | const | var | bin | call | callNative => exact ⟨k, hpiled, hfilled⟩
  | @hold r henabled hfree =>
      have hr := hfilled.free?_eq_some_iff.1 hfree
      exact ⟨k + 1, hr ▸ hpiled.register, hfilled.take hr⟩
  | spill hforced => exact ⟨k, hpiled.spill, hfilled.of_used_eq rfl⟩
  | @fetch op leftFirst r parked hparked hused =>
      rw [hparked] at hpiled
      generalize hn : r.val = n at hpiled
      cases hpiled with
      | register hrest => exact ⟨_, hrest, hfilled.giveBack hn⟩
  | pop hparked hspills =>
      rw [hparked] at hpiled
      cases hpiled with
      | spill hrest => exact ⟨k, hrest, hfilled.of_used_eq rfl⟩

end Emitter

namespace Stats

/-- The counts with one more value parked. -/
def park (s : Stats) : Handle → Stats
  | .register n => { s with registersHit := s.registersHit + 1, maxReg := max s.maxReg n }
  | .spill => { s with stackSpills := s.stackSpills + 1 }

theorem registersHit_foldl_park (hs : List Handle) (s : Stats) :
    (hs.foldl park s).registersHit = s.registersHit + hs.countP Handle.isRegister := by
  induction hs generalizing s with
  | nil => rfl
  | cons h hs ih =>
      rw [List.foldl_cons, ih, countP_cons_toNat, ← Nat.add_assoc]
      cases h <;> rfl

theorem stackSpills_foldl_park (hs : List Handle) (s : Stats) :
    (hs.foldl park s).stackSpills = s.stackSpills + hs.countP (!·.isRegister) := by
  induction hs generalizing s with
  | nil => rfl
  | cons h hs ih =>
      rw [List.foldl_cons, ih, countP_cons_toNat, ← Nat.add_assoc]
      cases h <;> rfl

theorem maxReg_le_foldl_park (hs : List Handle) (s : Stats) :
    s.maxReg ≤ (hs.foldl park s).maxReg := by
  induction hs generalizing s with
  | nil => exact le_rfl
  | cons h hs ih =>
      refine le_trans ?_ (ih (s.park h))
      cases h with
      | register n => exact le_max_left _ _
      | spill => exact le_rfl

theorem le_maxReg_foldl_park {hs : List Handle} {n : Nat} (hn : .register n ∈ hs) (s : Stats) :
    n ≤ (hs.foldl park s).maxReg := by
  obtain ⟨before, behind, rfl⟩ := List.append_of_mem hn
  rw [List.foldl_append, List.foldl_cons]
  have hle := maxReg_le_foldl_park behind ((before.foldl park s).park (.register n))
  exact (le_max_right _ _).trans hle

theorem maxReg_foldl_park_cases (hs : List Handle) (s : Stats) :
    (hs.foldl park s).maxReg = s.maxReg ∨ .register (hs.foldl park s).maxReg ∈ hs := by
  induction hs generalizing s with
  | nil => exact .inl rfl
  | cons h hs ih =>
      rw [List.foldl_cons]
      rcases ih (s.park h) with hsame | hmem
      · rw [hsame]
        cases h with
        | spill => exact .inl rfl
        | register n =>
            rcases max_choice s.maxReg n with hold | hnew
            · exact .inl hold
            · exact .inr (by simp [park, hnew])
      · exact .inr (List.mem_cons_of_mem _ hmem)

end Stats

theorem Pool.stats_stash (p : Pool) (force : Bool) :
    (p.stash force).2.stats = p.stats.park (p.stash force).1 := by
  rcases p.stash_spec force with ⟨r, -, -, -, hstash⟩ | ⟨-, hstash⟩ <;>
    rw [hstash] <;> rfl

theorem Emitter.stats_combine (e : Emitter) (op : BinOp) (leftFirst : Bool) :
    (e.combine op leftFirst).1.pool.stats = e.pool.stats := by
  obtain ⟨code, pool, _ | ⟨handle, parked⟩, log⟩ := e
  · rfl
  · rw [combine]
    rcases pool.unstash_cases handle (if leftFirst then 0 else 1) with
      ⟨is, r, -, -, hback⟩ | ⟨is, k, -, -, hback⟩ | ⟨is, f, hback⟩
    · rw [hback]
      rfl
    · rw [hback]
    · rw [hback]

namespace Plan

/-- Where a plan parks its values, in order. -/
def handles : Plan → Pool → List Handle
  | const _, _ | var _, _ => []
  | bin _ _ force first second, p =>
    first.handles p ++ (p.stash force).1 :: second.handles (p.stash force).2
  | call _ arg, p => arg.handles p

theorem handles_congr (P : Plan) {p q : Pool} (h : p.SameUse q) : P.handles p = P.handles q := by
  induction P generalizing p q with
  | const v => rfl
  | var v => rfl
  | bin op leftFirst force first second ih₁ ih₂ =>
      obtain ⟨hhandle, hpool⟩ := h.stash force
      simp only [handles, ih₁ h, ih₂ hpool, hhandle]
  | call name arg ih => exact ih h

/-- The counts of the pool are those of the values that are parked. -/
theorem stats_emit {t : FunctionTable} {P : Plan} (h : P.tree.Known t) (e : Emitter) :
    (P.emit t e).1.pool.stats = (P.handles e.pool).foldl Stats.park e.pool.stats := by
  induction P generalizing e with
  | const v => rfl
  | var v => rfl
  | bin op leftFirst force first second ih₁ ih₂ =>
      obtain ⟨hfirst, hsecond⟩ := (known_tree_bin t op leftFirst force first second).1 h
      obtain ⟨e₁, hemit₁, -, -, hpool₁⟩ := emit_of_known hfirst e
      obtain ⟨e₂, hemit₂, -⟩ := emit_of_known hsecond (e₁.park force)
      obtain ⟨hhandle, hstash⟩ := hpool₁.stash force
      -- The first operand changes nothing but the counts, so the second finds the pool of the plan.
      have hstats₁ := ih₁ hfirst e
      have hstats₂ := ih₂ hsecond (e₁.park force)
      rw [hemit₁] at hstats₁
      rw [hemit₂] at hstats₂
      have hpark : (e₁.park force).pool = (e₁.pool.stash force).2 := rfl
      simp only [emit, hemit₁, hemit₂, Emitter.andThen, Emitter.stats_combine]
      rw [hstats₂, hpark, second.handles_congr hstash, Pool.stats_stash, hstats₁, hhandle, handles,
        List.foldl_append, List.foldl_cons]
  | call name arg ih =>
      obtain ⟨f, hf⟩ := (t.contains_eq_true_iff name).1 h.1
      obtain ⟨e₁, hemit₁, -⟩ := emit_of_known h.2 e
      have hstats₁ := ih h.2 e
      simp only [emit, FunctionTable.address?_of_get? hf, hemit₁, Emitter.andThen] at hstats₁ ⊢
      exact hstats₁

/-- The plan of a formula that parks right operands only, in registers if it can. -/
def rightFirst : Tree → Plan
  | .const v => const v
  | .var v => var v
  | .bin op l r => bin op false false (rightFirst r) (rightFirst l)
  | .call name a => call name (rightFirst a)

end Plan

theorem plan_of_hasCall_eq_false (g : Graph) (useDepth : Bool) {i : Fin g.size}
    (h : (g.unfold i).hasCall = false) :
    g.plan (CallAnalysis.run g useDepth) i = Plan.rightFirst (g.unfold i) := by
  induction i using Graph.node_induction with
  | const i v hi => rw [Graph.plan_const hi, Graph.unfold_const hi, Plan.rightFirst]
  | var i v hi => rw [Graph.plan_var hi, Graph.unfold_var hi, Plan.rightFirst]
  | bin i op l r hi ihl ihr =>
      rw [Graph.unfold_bin hi] at h ⊢
      obtain ⟨hl, hr⟩ := Bool.or_eq_false_iff.1 h
      rw [Graph.plan_bin hi, Tree.leftFirst_run, Tree.leftFirst_eq, CallAnalysis.hasCall_run,
        CallAnalysis.hasCall_run, hl, hr, ihl hl, ihr hr, Plan.rightFirst]
      simp
  | call i name arg hi ih =>
      rw [Graph.unfold_call hi] at h
      cases h

/-- The code of a formula without calls that `d` left operands lead to. The right operand of an
operation is kept in register `2 + d` if there is such a register, and on the stack if not. -/
def callFreeCode : Tree → Nat → List Instr
  | .const v, _ => [.movImm .rax v.bits, .movqToXmm xmm0 .rax]
  | .var .x, _ => [.movsdLoad xmm0 .rbp (-8)]
  | .var .y, _ => [.movsdLoad xmm0 .rbp (-16)]
  | .bin op l r, d =>
    if d ≤ 5 then
      callFreeCode r d ++ [.movsd (.ofNat (2 + d)) xmm0] ++ callFreeCode l (d + 1) ++
        [.movsd xmm1 (.ofNat (2 + d)), .arith op xmm0 xmm1]
    else
      callFreeCode r d ++ [.movqFromXmm .rax xmm0, .push .rax] ++ callFreeCode l (d + 1) ++
        [.pop .rax, .movqToXmm xmm1 .rax, .arith op xmm0 xmm1]
  | .call _ _, _ => []

section CallFree

variable {e : Tree} {p : Pool} {d : Nat}

theorem code_rightFirst (t : FunctionTable) (h : e.hasCall = false) (hfilled : p.Filled (min d 6))
    (hon : p.enabled = true) : (Plan.rightFirst e).code t p = callFreeCode e d := by
  induction e generalizing p d with
  | const v => rfl
  | var v => cases v <;> rfl
  | bin op l r ihl ihr =>
      obtain ⟨hl, hr⟩ := Bool.or_eq_false_iff.1 h
      obtain ⟨hhandle, hfilled', hon'⟩ := hfilled.stash hon
      rw [Plan.rightFirst, Plan.code, callFreeCode, ihr hr hfilled hon, ihl hl hfilled' hon',
        hhandle, Handle.atDepth]
      split <;> simp [Pool.park, Emitter.combineCode, Pool.restore, xmm1]
  | call name a ih => cases h

theorem handles_rightFirst (h : e.hasCall = false) (hfilled : p.Filled (min d 6))
    (hon : p.enabled = true) :
    (Plan.rightFirst e).handles p = e.leftDepths.map fun k ↦ .atDepth (d + k) := by
  induction e generalizing p d with
  | const v => rfl
  | var v => rfl
  | bin op l r ihl ihr =>
      obtain ⟨hl, hr⟩ := Bool.or_eq_false_iff.1 h
      obtain ⟨hhandle, hfilled', hon'⟩ := hfilled.stash hon
      rw [Plan.rightFirst, Plan.handles, ihr hr hfilled hon, ihl hl hfilled' hon', hhandle,
        Tree.leftDepths]
      simp [Nat.add_assoc, Nat.add_comm 1]
  | call name a ih => cases h

end CallFree

theorem maxReg_atDepth {ds : List Nat} (hclosed : ∀ m n, n ∈ ds → m ≤ n → m ∈ ds) :
    ((ds.map Handle.atDepth).foldl Stats.park {}).maxReg =
      ds.max?.elim 0 fun d ↦ 2 + min 5 d := by
  cases hmax : ds.max? with
  | none =>
      obtain rfl := List.max?_eq_none_iff.1 hmax
      rfl
  | some d =>
      obtain ⟨hd, hle⟩ := List.max?_eq_some_iff.1 hmax
      rw [Option.elim_some]
      -- Also where the greatest depth is on the stack, the last register has been given out.
      have hmem : Handle.register (2 + min 5 d) ∈ ds.map Handle.atDepth :=
        List.mem_map.2 ⟨min 5 d, hclosed _ d hd (min_le_right 5 d),
          Handle.atDepth_eq_register_iff.2 ⟨min_le_left 5 d, rfl⟩⟩
      apply le_antisymm
      · rcases Stats.maxReg_foldl_park_cases (ds.map Handle.atDepth) {} with hzero | htop
        · rw [hzero]
          exact Nat.zero_le _
        · obtain ⟨m, hm, hplace⟩ := List.mem_map.1 htop
          obtain ⟨hm5, hplace⟩ := Handle.atDepth_eq_register_iff.1 hplace
          have hmd := hle m hm
          omega
      · exact Stats.le_maxReg_foldl_park hmem {}

variable {r : RootedGraph} {t : FunctionTable} {s : Switches} {asm : Assembly}

theorem stats_of_assemble (h : (assemble r t s).1 = .ok asm) :
    asm.stats = ((planOf r s).handles (.new s.useRegisters)).foldl Stats.park {} := by
  obtain ⟨e, hrun, -, hstats, -⟩ := exists_run_of_assemble h
  have hknown : (planOf r s).tree.Known t := tree_planOf r s ▸ known_of_assemble h
  have hemit : (planOf r s).emit t (.start s) = (e, none) := (emitWith_eq r t s _).symm.trans hrun
  have hcounts := Plan.stats_emit hknown (.start s)
  rw [hemit] at hcounts
  exact hstats.trans hcounts

/-- At every moment of an emission, and at its end, the registers in use are the lowest ones. -/
theorem filled_of_assemble (h : (assemble r t s).1 = .ok asm) :
    (∀ x ∈ history r t s, ∃ k, x.1.pool.Filled k) ∧
      ∃ e, emitWith r t s (CallAnalysis.run r.graph s.useCallDepth) = (e, none) ∧
        e.pool.Filled 0 := by
  obtain ⟨e, hrun, hparked, -, -⟩ := exists_run_of_assemble h
  have hstart : (Emitter.start s).Orderly := ⟨0, .nil, Pool.filled_new _⟩
  obtain ⟨⟨k, hpiled, hfilled⟩, hall⟩ := Emitter.forall_history
    (fun _ _ _ _ hgoes ↦ Emitter.Orderly.of_goes hgoes) hstart hrun
  constructor
  · intro x hx
    obtain ⟨k, -, hk⟩ := hall x hx
    exact ⟨k, hk⟩
  · rw [hparked] at hpiled
    cases hpiled with
    | nil => exact ⟨e, hrun, hfilled⟩

/-- Without calls, the right operand of an operation that `d` left operands lead to is parked in
register `2 + d` if there is such a register, and on the stack if not. So the counts tell how many
operations there are of either kind, and the highest register tells the greatest of these numbers as
far as there are registers. At every moment the registers in use are the lowest ones. -/
theorem call_free_registers_by_left_depth (t : FunctionTable) (hon : s.useRegisters = true)
    (hfree : r.tree.hasCall = false) :
    ∃ asm, (assemble r t s).1 = .ok asm ∧
      asm.code.toList =
        encodeAll (Emitter.prologue ++ (callFreeCode r.tree 0 ++ Emitter.epilogue)) ∧
      asm.stats.registersHit = r.tree.leftDepths.countP (· ≤ 5) ∧
      asm.stats.stackSpills = r.tree.leftDepths.countP (6 ≤ ·) ∧
      asm.stats.maxReg = (r.tree.leftDepths.max?.elim 0 fun d ↦ 2 + min 5 d) ∧
      (∀ x ∈ history r t s, ∃ k, x.1.pool.Filled k) ∧
      ∃ e, emitWith r t s (CallAnalysis.run r.graph s.useCallDepth) = (e, none) ∧
        e.pool.Filled 0 := by
  have hknown : r.tree.Known t :=
    Tree.firstUnknown?_eq_none_iff.1 (Tree.firstUnknown?_of_hasCall_eq_false hfree)
  obtain ⟨asm, hasm, hcode⟩ := assemble_of_known s hknown
  have hplan : planOf r s = .rightFirst r.tree := plan_of_hasCall_eq_false r.graph _ hfree
  have hfilled : (Pool.new s.useRegisters).Filled (min 0 6) := Pool.filled_new _
  have hstats : asm.stats = (r.tree.leftDepths.map Handle.atDepth).foldl Stats.park {} := by
    rw [stats_of_assemble hasm, hplan, handles_rightFirst hfree hfilled hon]
    simp only [Nat.zero_add]
  refine ⟨asm, hasm, ?_, ?_, ?_, ?_, filled_of_assemble hasm⟩
  · rw [hcode, routineCode, hplan, code_rightFirst t hfree hfilled hon]
  · rw [hstats, Stats.registersHit_foldl_park, List.countP_map, Nat.zero_add]
    exact List.countP_congr fun d _ ↦ by simp [Handle.isRegister_atDepth]
  · rw [hstats, Stats.stackSpills_foldl_park, List.countP_map, Nat.zero_add]
    exact List.countP_congr fun d _ ↦ by simp [Handle.isRegister_atDepth, Nat.lt_iff_add_one_le]
  · rw [hstats]
    exact maxReg_atDepth fun m n ↦ Tree.mem_leftDepths_of_le

/-- A chain of seven differences with a difference in each right operand, which runs out of
registers and comes back to them. -/
theorem call_free_registers_by_left_depth_of_chain :
    let r : RootedGraph :=
      ⟨⟨#[.var .x, .var .y, .bin .sub 0 1, .bin .sub 2 2, .bin .sub 3 2, .bin .sub 4 2,
        .bin .sub 5 2, .bin .sub 6 2, .bin .sub 7 2, .bin .sub 8 2], by decide⟩, ⟨9, by decide⟩⟩
    r.tree.hasCall = false ∧ ∃ asm, (assemble r ⟨[]⟩ {}).1 = .ok asm ∧
      asm.stats.registersHit = 12 ∧ asm.stats.stackSpills = 3 ∧ asm.stats.maxReg = 7 := by
  intro r
  have hfree : r.tree.hasCall = false := by decide
  obtain ⟨asm, hasm, -, hhits, hspills, htop, -⟩ :=
    call_free_registers_by_left_depth (r := r) (s := {}) ⟨[]⟩ rfl hfree
  have hdepths : r.tree.leftDepths.countP (· ≤ 5) = 12 ∧ r.tree.leftDepths.countP (6 ≤ ·) = 3 ∧
      r.tree.leftDepths.max? = some 7 := by decide
  obtain ⟨hlow, hhigh, hmax⟩ := hdepths
  rw [hmax] at htop
  exact ⟨hfree, asm, hasm, hhits.trans hlow, hspills.trans hhigh, htop⟩

end Code

end Formula
