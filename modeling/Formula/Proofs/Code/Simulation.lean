import Formula.Proofs.Code.Frame
import Formula.Proofs.Graph.Growth

/-!
# Routines compute formulas

A native function may leave anything in the registers and below the stack pointer; it keeps the
stack pointer, the frame pointer and the memory from the stack pointer up (`Machine.Returns`). What
it gives is a word, and may depend on the calls before it: a `Behaviour` says which words are
possible.
`Plan.Performs` evaluates a plan in its order and notes the calls. The instructions of a plan do
the same on a machine (`Plan.exists_steps_code`), and so does a whole routine.
-/

namespace Formula

open X86 Machine

namespace X86.Machine

/-- What a native function that gives `result` may do. -/
structure Returns (result : UInt64) (m m' : Machine) : Prop where
  xmm0 : m'.getXmm xmm0 = result
  rsp : m'.rsp = m.rsp
  rbp : m'.rbp = m.rbp
  above : m.SameAbove m'

/-- Which words a call may give, from the calls so far, a name and the word of an argument. -/
abbrev Behaviour := List NativeCall → String → UInt64 → UInt64 → Prop

/-- The functions of a table return something that the behaviour allows. -/
def CallModel.Follows (model : CallModel) (t : FunctionTable) (B : Behaviour) : Prop :=
  ∀ name f, t.get? name = some f → ∀ m, ∃ m' w,
    model f.address m = some m' ∧ B m.calls name (m.getXmm xmm0) w ∧ m.Returns w m'

/-- The functions of a table return what they compute. -/
def CallModel.Conforms (model : CallModel) (t : FunctionTable) : Prop :=
  ∀ name f, t.get? name = some f → ∀ m, ∃ m',
    model f.address m = some m' ∧ m.Returns (f.apply ⟨m.getXmm xmm0⟩).bits m'

end X86.Machine

/-- The functions of a table give what they compute, whatever was called before. -/
def FunctionTable.behaviour (t : FunctionTable) : Behaviour := fun _ name a w ↦
  ∃ f, t.get? name = some f ∧ (f.apply ⟨a⟩).bits = w

theorem X86.Machine.CallModel.Conforms.follows {model : CallModel} {t : FunctionTable}
    (h : model.Conforms t) : model.Follows t t.behaviour := by
  intro name f hf m
  obtain ⟨m', hcall, hret⟩ := h name f hf m
  exact ⟨m', _, hcall, ⟨f, hf, rfl⟩, hret⟩

/-- An instruction that neither calls nor returns. -/
def X86.Instr.Straight : Instr → Prop
  | .call _ | .ret => False
  | _ => True

namespace Code

variable {model : CallModel} {t : FunctionTable} {B : Behaviour} {m : Machine} {base x y : UInt64}

theorem straight_park (h : Handle) : ∀ i ∈ Pool.park h, i.Straight := by
  cases h <;> simp [Pool.park, Instr.Straight]

theorem straight_combineCode (op : BinOp) (leftFirst : Bool) (h : Handle) :
    ∀ i ∈ Emitter.combineCode op leftFirst h, i.Straight := by
  cases h <;> cases leftFirst <;> simp [Emitter.combineCode, Pool.restore, Instr.Straight]

theorem steps_call {address : UInt64} {m' : Machine}
    (h : model address { m with rax := address } = some m') :
    steps model [.movImm .rax address, .call .rax] m =
      .ok { m' with calls := ⟨address, m.getXmm xmm0⟩ :: m.calls } := by
  have hcall : callAt model { m with rax := address } address =
      .ok { m' with calls := ⟨address, m.getXmm xmm0⟩ :: m.calls } := by
    simp only [callAt, h, getXmm]
  exact congrArg (Except.bind · (steps model [])) hcall

/-- The instructions of a call do what the function does, and the call is noted. -/
theorem exists_steps_callCode (hmodel : model.Follows t B) {name : String} {f : Native}
    (hf : t.get? name = some f) {n : Nat} (hm : m.AtDepth base x y n)
    (hroom : 8 * (n + 3) ≤ base.toNat) :
    ∃ m', steps model (Emitter.callCode f.address n) m = .ok m' ∧
      m.Returns (m'.getXmm xmm0) m' ∧ B m.calls name (m.getXmm xmm0) (m'.getXmm xmm0) ∧
      m'.calls = ⟨f.address, m.getXmm xmm0⟩ :: m.calls := by
  rw [Emitter.callCode]
  split
  · -- The padding lies below the stack pointer, so the memory above is kept all the same.
    let low : Machine := { m with rsp := m.rsp - 8 }
    have hlow : low.rsp ≤ m.rsp := by
      have hrsp : low.rsp = slot base (n + 3) := by
        simp only [low, hm.rsp, slot_sub_eight]
      rw [hrsp, hm.rsp]
      exact slot_le_slot (by omega) hroom
    obtain ⟨m', w, hcall, hB, hret⟩ := hmodel name f hf { low with rax := f.address }
    have hrsp : m'.rsp + 8 = m.rsp := by
      rw [hret.rsp]
      exact sub_add_cancel _ _
    refine ⟨⟨m'.rax, m'.rsp + 8, m'.rbp, m'.xmm, m'.memory,
      ⟨f.address, m.getXmm xmm0⟩ :: m.calls⟩, ?_, ⟨rfl, hrsp, hret.rbp, ?_⟩, ?_, rfl⟩
    · have hdown : steps model [.subImm .rsp 8] m = .ok low := rfl
      have hmade := (steps_append_of_ok hdown).trans (steps_call hcall)
      exact (steps_append_of_ok hmade).trans rfl
    · intro a ha
      exact hret.above a (UInt64.le_trans hlow ha)
    · rw [← hret.xmm0] at hB
      exact hB
  · obtain ⟨m', w, hcall, hB, hret⟩ := hmodel name f hf { m with rax := f.address }
    rw [← hret.xmm0] at hB
    exact ⟨_, steps_call hcall, ⟨rfl, hret.rsp, hret.rbp, hret.above⟩, hB, rfl⟩

namespace Plan

/-- Evaluating a plan in its order gives a word and makes calls after those made before. -/
inductive Performs (t : FunctionTable) (B : Behaviour) (x y : UInt64) :
    Plan → List NativeCall → UInt64 → List NativeCall → Prop
  | const (v : Double) (made) : Performs t B x y (.const v) made v.bits made
  | x (made) : Performs t B x y (.var .x) made x made
  | y (made) : Performs t B x y (.var .y) made y made
  | bin {P Q made₀ made₁ made₂ a b} (op : BinOp) (leftFirst force : Bool)
      (hP : Performs t B x y P made₀ a made₁) (hQ : Performs t B x y Q made₁ b made₂) :
      Performs t B x y (.bin op leftFirst force P Q) made₀
        (if leftFirst then arith op a b else arith op b a) made₂
  | call {P made₀ made₁ name f a w} (hf : t.get? name = some f)
      (hP : Performs t B x y P made₀ a made₁) (hw : B made₁ name a w) :
      Performs t B x y (.call name P) made₀ w (⟨f.address, a⟩ :: made₁)

/-- A plan whose functions are known fits a pool and a frame: what must not be in a register across
a call is not, and the stack has room below the frame pointer. -/
structure Fits (t : FunctionTable) (base : UInt64) (P : Plan) (p : Pool) : Prop where
  safe : P.Safe
  known : P.tree.Known t
  workFree : p.WorkFree
  idle : P.tree.hasCall = true → p.Idle
  room : 8 * (p.pendingSpills + P.tree.height + 2) ≤ base.toNat

namespace Fits

variable {op : BinOp} {leftFirst force : Bool} {P Q : Plan} {name : String} {p : Pool}

theorem first (h : Fits t base (.bin op leftFirst force P Q) p) : Fits t base P p where
  safe := h.safe.2.1
  known := ((known_tree_bin ..).1 h.known).1
  workFree := h.workFree
  idle hcall := h.idle (by rw [hasCall_tree_bin, hcall, Bool.true_or])
  room := by
    have hroom := h.room
    rw [height_tree_bin] at hroom
    omega

theorem second (h : Fits t base (.bin op leftFirst force P Q) p) :
    Fits t base Q (p.stash force).2 where
  safe := h.safe.2.2
  known := ((known_tree_bin ..).1 h.known).2
  workFree := h.workFree.stash force
  idle hcall := by
    -- A plan is safe only if the first operand goes to the stack here.
    rw [h.safe.1 hcall]
    exact (h.idle (by rw [hasCall_tree_bin, hcall, Bool.or_true])).stash_true
  room := by
    have hroom := h.room
    have hspills := p.pendingSpills_stash_le force
    rw [height_tree_bin] at hroom
    omega

theorem arg (h : Fits t base (.call name P) p) : Fits t base P p where
  safe := h.safe
  known := h.known.2
  workFree := h.workFree
  idle _ := h.idle rfl
  room := by
    have hroom : 8 * (p.pendingSpills + (P.tree.height + 1) + 2) ≤ base.toNat := h.room
    omega

end Fits

theorem keeps_setXmm_xmm0 {p : Pool} (h : p.WorkFree) (m : Machine) (rax w : UInt64) :
    m.Keeps p (setXmm { m with rax } xmm0 w) := by
  refine ⟨rfl, rfl, fun _ _ ↦ rfl, fun r hr ↦ ?_⟩
  rw [getXmm_setXmm, if_neg (h.ne_of_isUsed hr).1.symm]
  rfl

/-- The instructions of a plan leave its value in `xmm0`, make its calls in its order and keep what
is in use. -/
theorem exists_steps_code (hmodel : model.Follows t B) {P : Plan} {p : Pool}
    (hfits : Fits t base P p) (hm : m.AtDepth base x y p.pendingSpills) :
    ∃ m', steps model (P.code t p) m = .ok m' ∧ m.Keeps p m' ∧
      P.Performs t B x y m.calls (m'.getXmm xmm0) m'.calls := by
  induction P generalizing p m with
  | const v =>
      refine ⟨setXmm { m with rax := v.bits } xmm0 v.bits, rfl,
        keeps_setXmm_xmm0 hfits.workFree m v.bits v.bits, ?_⟩
      rw [getXmm_setXmm, if_pos rfl]
      exact .const v m.calls
  | var v =>
      refine ⟨m.setXmm xmm0 (m.memory.readWord (m.effective .rbp v.slot)), rfl,
        keeps_setXmm_xmm0 hfits.workFree m m.rax _, ?_⟩
      rw [getXmm_setXmm, if_pos rfl, hm.readWord_effective]
      cases v with
      | x => exact .x m.calls
      | y => exact .y m.calls
  | bin op leftFirst force P Q ihP ihQ =>
      have hroom := hfits.room
      rw [height_tree_bin] at hroom
      obtain ⟨m₁, hsteps₁, hkeep₁, hout₁⟩ := ihP hfits.first hm
      have hm₁ := hm.of_keeps (by omega) hkeep₁
      obtain ⟨m₂, hsteps₂, hm₂, hholds, habove₂, hused₂, hcalls₂⟩ :=
        exists_steps_park model force hm₁ (by omega)
      obtain ⟨m₃, hsteps₃, hkeep₃, hout₃⟩ := ihQ hfits.second hm₂
      have hspills := p.pendingSpills_stash_le force
      have hm₃ := hm₂.of_keeps (by omega) hkeep₃
      -- The parked value is still there: its register is in use, or it is above the stack pointer.
      obtain ⟨m₄, hsteps₄, hval, hrsp, hrbp, hmem, hcalls₄, hother⟩ :=
        exists_steps_combineCode model op leftFirst
          (hholds.of_keeps hm₂ (by omega) hkeep₃) fun n ↦ Handle.ne_xmm1_of_stash
      have hdown : m₂.rsp ≤ m₁.rsp := by
        have hmore := p.le_pendingSpills_stash force
        rw [hm₁.rsp, hm₂.rsp]
        exact slot_le_slot (by omega) (by omega)
      refine ⟨m₄, ?_, ⟨?_, ?_, ?_, ?_⟩, ?_⟩
      · exact (steps_append_of_ok hsteps₁).trans ((steps_append_of_ok hsteps₂).trans
          ((steps_append_of_ok hsteps₃).trans hsteps₄))
      · rw [hrsp, Handle.rspAfter_stash hm₃, hm.rsp]
      · rw [hrbp, hm₃.rbp, hm.rbp]
      · have habove₃ := habove₂.trans hdown hkeep₃.above
        have habove₄ : m₁.SameAbove m₄ := fun a ha ↦ (congrArg (·.read a) hmem).trans (habove₃ a ha)
        exact hkeep₁.above.trans (UInt64.le_of_eq hkeep₁.rsp) habove₄
      · intro r hr
        obtain ⟨hr₀, hr₁⟩ := hfits.workFree.ne_of_isUsed hr
        rw [hother r hr₀ hr₁, hkeep₃.xmm r (Pool.isUsed_stash_of_isUsed hr force), hused₂ r hr,
          hkeep₁.xmm r hr]
      · rw [hval, hcalls₄]
        rw [hcalls₂] at hout₃
        exact .bin op leftFirst force hout₁ hout₃
  | call name P ih =>
      obtain ⟨f, hf⟩ := (t.contains_eq_true_iff name).1 hfits.known.1
      have haddr := FunctionTable.address?_of_get? hf
      have hroom : 8 * (p.pendingSpills + (P.tree.height + 1) + 2) ≤ base.toNat := hfits.room
      obtain ⟨m₁, hsteps₁, hkeep₁, hout₁⟩ := ih hfits.arg hm
      have hm₁ := hm.of_keeps (by omega) hkeep₁
      obtain ⟨m₂, hsteps₂, hret, hB, hcalls⟩ := exists_steps_callCode hmodel hf hm₁ (by omega)
      refine ⟨m₂, ?_, ⟨hret.rsp.trans hkeep₁.rsp, hret.rbp.trans hkeep₁.rbp, ?_, ?_⟩, ?_⟩
      · rw [code, haddr]
        exact (steps_append_of_ok hsteps₁).trans hsteps₂
      · exact hkeep₁.above.trans (UInt64.le_of_eq hkeep₁.rsp) hret.above
      · -- A function may change every register, but none is in use.
        intro r hr
        rw [hfits.idle rfl r] at hr
        cases hr
      · rw [hcalls]
        exact .call hf hout₁ hB

theorem Performs.value_tree {P : Plan} {made made' : List NativeCall} {w : UInt64}
    (h : P.Performs t t.behaviour x y made w made') : P.tree.value t ⟨x⟩ ⟨y⟩ = some ⟨w⟩ := by
  induction h with
  | const v made => rfl
  | x made => rfl
  | y made => rfl
  | bin op leftFirst force _ _ ihP ihQ =>
      cases leftFirst <;> simp [tree, Tree.value, ihP, ihQ, arith]
  | call hf _ hw ih =>
      obtain ⟨f, hf, rfl⟩ := hw
      simp [tree, Tree.value, hf, ih]

theorem ret_not_mem_code (t : FunctionTable) (P : Plan) (p : Pool) : Instr.ret ∉ P.code t p := by
  induction P generalizing p with
  | const v => simp [code, Emitter.loadConst]
  | var v => simp [code, Emitter.loadVar]
  | bin op leftFirst force P Q ihP ihQ =>
      have hpark : Instr.ret ∉ Pool.park (p.stash force).1 := straight_park _ _
      have hcombine : Instr.ret ∉ Emitter.combineCode op leftFirst (p.stash force).1 :=
        straight_combineCode op leftFirst _ _
      simp [code, ihP, ihQ, hpark, hcombine]
  | call name P ih =>
      have hcall : ∀ address n, Instr.ret ∉ Emitter.callCode address n := by
        intro address n
        rw [Emitter.callCode]
        split <;> simp
      simp [code, ih, hcall]

end Plan

def routineBody (t : FunctionTable) (s : Switches) (P : Plan) : List Instr :=
  Emitter.prologue ++ (P.code t (.new s.useRegisters) ++ [.addImm .rsp 16, .pop .rbp])

theorem routineCode_eq (t : FunctionTable) (s : Switches) (P : Plan) :
    routineCode t s P = routineBody t s P ++ [.ret] := by
  simp [routineCode, routineBody, Emitter.epilogue]

theorem ret_not_mem_routineBody (t : FunctionTable) (s : Switches) (P : Plan) :
    Instr.ret ∉ routineBody t s P := by
  simp [routineBody, Emitter.prologue, P.ret_not_mem_code]

theorem Plan.fits_of_room {P : Plan} (hsafe : P.Safe) (hknown : P.tree.Known t) (enabled : Bool)
    (hroom : 8 * (P.tree.height + 3) ≤ m.rsp.toNat) : P.Fits t (m.rsp - 8) (.new enabled) where
  safe := hsafe
  known := hknown
  workFree := ⟨Pool.idle_new enabled _, Pool.idle_new enabled _⟩
  idle _ := Pool.idle_new enabled
  room := by
    have hbase : (m.rsp - 8).toNat = m.rsp.toNat - 8 := toNat_sub_eight (by omega)
    have hspills : (Pool.new enabled).pendingSpills = 0 := rfl
    omega

/-- A routine is itself a function that returns: it gives the value of its plan and makes its
calls. -/
theorem exists_steps_routineBody (hmodel : model.Follows t B) {P : Plan} (hsafe : P.Safe)
    (hknown : P.tree.Known t) (s : Switches) (hroom : 8 * (P.tree.height + 3) ≤ m.rsp.toNat) :
    ∃ m', steps model (routineBody t s P) m = .ok m' ∧ m.Returns (m'.getXmm xmm0) m' ∧
      P.Performs t B (m.getXmm xmm0) (m.getXmm xmm1) m.calls (m'.getXmm xmm0) m'.calls := by
  have hfits := P.fits_of_room hsafe hknown s.useRegisters hroom
  obtain ⟨m₁, hsteps₁, hm₁, hsaved, habove₁, hcalls₁⟩ :=
    exists_steps_prologue model (m := m) (by omega)
  obtain ⟨m₂, hsteps₂, hkeep, hout⟩ := Plan.exists_steps_code hmodel hfits hm₁
  have hbase : (m.rsp - 8).toNat = m.rsp.toNat - 8 := toNat_sub_eight (by omega)
  have hdepth : m₁.rsp.toNat = (m.rsp - 8).toNat - 16 := by
    rw [hm₁.rsp, toNat_slot (by omega)]
  obtain ⟨m₃, hsteps₃, hrsp, hrbp, hmem, hcalls₃, hxmm⟩ :=
    exists_steps_epilogue model (hm₁.of_keeps (by omega) hkeep)
  refine ⟨m₃, ?_, ⟨rfl, ?_, ?_, ?_⟩, ?_⟩
  · exact (steps_append_of_ok hsteps₁).trans ((steps_append_of_ok hsteps₂).trans hsteps₃)
  · rw [hrsp, sub_add_cancel]
  · have hlow : m₁.rsp ≤ m.rsp - 8 := UInt64.le_iff_toNat_le.2 (by omega)
    rw [hrbp, ← hsaved, hkeep.above.readWord hlow (by have := m.rsp.toNat_lt; omega)]
  · have hlow : m₁.rsp ≤ m.rsp := UInt64.le_iff_toNat_le.2 (by omega)
    have habove := habove₁.trans hlow hkeep.above
    exact fun a ha ↦ (congrArg (·.read a) hmem).trans (habove a ha)
  · have hres : m₃.getXmm xmm0 = m₂.getXmm xmm0 := by simp only [getXmm, hxmm]
    rw [hcalls₃, hres, ← hcalls₁]
    exact hout

/-- Assembled code is a list of instructions that ends with its only return, and up to there it
computes the formula. -/
theorem exists_steps_of_assemble {r : RootedGraph} {s : Switches} {asm : Assembly}
    (hasm : (assemble r t s).1 = .ok asm) (hmodel : model.Conforms t)
    (hroom : 8 * (r.tree.height + 3) ≤ m.rsp.toNat) :
    ∃ is m', asm.code.toList = encodeAll (is ++ [.ret]) ∧ Instr.ret ∉ is ∧
      steps model is m = .ok m' ∧
      r.tree.value t ⟨m.getXmm xmm0⟩ ⟨m.getXmm xmm1⟩ = some ⟨m'.getXmm xmm0⟩ := by
  have htree := tree_planOf r s
  have hknown : (planOf r s).tree.Known t := htree ▸ known_of_assemble hasm
  have hcode := toList_code_of_assemble hasm
  rw [routineCode_eq] at hcode
  obtain ⟨m', hsteps, -, hout⟩ :=
    exists_steps_routineBody hmodel.follows (safe_planOf r s) hknown s (htree ▸ hroom)
  refine ⟨_, m', hcode, ret_not_mem_routineBody t s _, hsteps, ?_⟩
  rw [← htree]
  exact hout.value_tree

/-- The code of a formula runs straight through to its return and leaves the value of the formula in
`xmm0`, bit for bit, whatever words native functions give for words, and whatever they do to the
registers and the memory that they need not keep. The stack must have room for the values on it: one
word for each operation and call on a path of the formula, besides the frame. -/
theorem assembled_code_computes_tree {r : RootedGraph} {s : Switches} {asm : Assembly}
    (hasm : (assemble r t s).1 = .ok asm) (hmodel : model.Conforms t)
    (hroom : 8 * (r.tree.height + 3) ≤ m.rsp.toNat) :
    ∃ m', run model asm.code.toList m = .ok m' ∧
      Point.Reaches model ⟨asm.code.toList, m⟩ ⟨Instr.ret.encode, m'⟩ ∧
      r.tree.value t ⟨m.getXmm xmm0⟩ ⟨m.getXmm xmm1⟩ = some ⟨m'.getXmm xmm0⟩ := by
  obtain ⟨is, m', hcode, his, hsteps, hvalue⟩ := exists_steps_of_assemble hasm hmodel hroom
  refine ⟨m', ?_, ?_, hvalue⟩
  · have hrun : run model (encodeAll (is ++ [.ret]) ++ []) m = _ := run_encodeAll his []
    rw [List.append_nil, hsteps] at hrun
    rw [hcode, hrun]
  · rw [hcode, Point.reaches_encodeAll_iff]
    exact ⟨is, [.ret], rfl, his, by simp, hsteps⟩

/-- A formula with a call on both sides and a constant that is no number, a function that tells such
words apart, and calls that clear every other register. -/
theorem assembled_code_computes_tree_of_clearing_call :
    let e : Expr := .bin .sub (.call "next" (.var .x))
      (.bin .add (.number ⟨0x7ff0000000000001⟩) (.call "next" (.var .y)))
    let next : Native := ⟨1, fun v ↦ ⟨v.bits + 1⟩⟩
    let model : CallModel := fun _ m ↦ some ⟨0, m.rsp, m.rbp,
      #v[m.getXmm xmm0 + 1, 0, 0, 0, 0, 0, 0, 0], m.memory, []⟩
    model.Conforms ⟨[("next", next)]⟩ ∧
      ∃ asm m', (assemble e.toGraph ⟨[("next", next)]⟩ ⟨true, true, true⟩).1 = .ok asm ∧
        run model asm.code.toList (.entry 2 (-3)) = .ok m' ∧
        e.tree.value ⟨[("next", next)]⟩ 2 (-3) = some ⟨m'.getXmm xmm0⟩ := by
  intro e next model
  have hmodel : model.Conforms ⟨[("next", next)]⟩ := by
    intro name f hf m
    have hnext : f = next := by
      simp only [FunctionTable.get?, FunctionTable.lookup] at hf
      split at hf <;> simp_all
    subst hnext
    exact ⟨_, rfl, rfl, rfl, rfl, fun _ _ ↦ rfl⟩
  have hknown : e.toGraph.tree.Known ⟨[("next", next)]⟩ := by
    rw [e.tree_toGraph]
    simp [e, Expr.tree, Tree.Known, FunctionTable.contains, FunctionTable.get?,
      FunctionTable.lookup]
  obtain ⟨asm, hasm, -⟩ := assemble_of_known ⟨true, true, true⟩ hknown
  have hroom : 8 * (e.toGraph.tree.height + 3) ≤ (entry 2 (-3)).rsp.toNat := by
    rw [e.tree_toGraph]
    decide
  obtain ⟨m', hrun, -, hvalue⟩ := assembled_code_computes_tree hasm hmodel hroom
  rw [e.tree_toGraph] at hvalue
  exact ⟨hmodel, asm, m', hasm, hrun, hvalue⟩

end Code

end Formula
