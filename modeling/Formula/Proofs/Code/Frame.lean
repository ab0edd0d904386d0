import Formula.Proofs.Code.Emission
import Formula.Proofs.X86.Execution

/-!
# The frame of a routine

Under the frame pointer stand the two inputs, and under them the values that are parked on the
stack. A machine is `AtDepth n` when `n` words are below the inputs. `Machine.Keeps` is what every
part of a routine keeps: the stack pointer, the frame pointer, the memory from the stack pointer
up, and the registers that the pool has in use. Parking a value and bringing it back have one lemma
each.
-/

namespace Formula

namespace X86

/-- The address of the `k`-th word below `base`. -/
def slot (base : UInt64) (k : Nat) : UInt64 := base - UInt64.ofNat (8 * k)

theorem toNat_slot {base : UInt64} {k : Nat} (h : 8 * k ≤ base.toNat) :
    (slot base k).toNat = base.toNat - 8 * k := by
  have hbase := base.toNat_lt
  have hk : (UInt64.ofNat (8 * k)).toNat = 8 * k := by
    rw [UInt64.toNat_ofNat', Nat.mod_eq_of_lt (by omega)]
  rw [slot, UInt64.toNat_sub_of_le _ _ (UInt64.le_iff_toNat_le.2 (by omega)), hk]

theorem slot_le_slot {base : UInt64} {j k : Nat} (hjk : j ≤ k) (h : 8 * k ≤ base.toNat) :
    slot base k ≤ slot base j := by
  rw [UInt64.le_iff_toNat_le, toNat_slot h, toNat_slot (by omega)]
  omega

theorem toNat_sub_eight {a : UInt64} (h : 8 ≤ a.toNat) : (a - 8).toNat = a.toNat - 8 :=
  UInt64.toNat_sub_of_le _ _ (UInt64.le_iff_toNat_le.2 h)

theorem slot_sub_eight (base : UInt64) (k : Nat) : slot base k - 8 = slot base (k + 1) := by
  rw [slot, slot, Nat.mul_add, UInt64.ofNat_add, sub_sub]
  rfl

theorem slot_add_eight (base : UInt64) (k : Nat) : slot base (k + 1) + 8 = slot base k := by
  rw [← slot_sub_eight, sub_add_cancel]

/-- The inputs have the first two words below the frame pointer. -/
theorem add_slot (base : UInt64) (v : Var) :
    base + v.slot.toInt64.toUInt64 = slot base (match v with | .x => 1 | .y => 2) := by
  cases v with
  | x =>
      rw [slot, show Var.x.slot.toInt64.toUInt64 = -UInt64.ofNat (8 * 1) by decide,
        ← sub_eq_add_neg]
  | y =>
      rw [slot, show Var.y.slot.toInt64.toUInt64 = -UInt64.ofNat (8 * 2) by decide,
        ← sub_eq_add_neg]

/-- The bytes of a word below `base` lie between its address and the next higher word. -/
theorem inWord_slot_iff {base c : UInt64} {k : Nat} (h : 8 * (k + 1) ≤ base.toNat) :
    InWord (slot base (k + 1)) c ↔
      base.toNat - 8 * (k + 1) ≤ c.toNat ∧ c.toNat < base.toNat - 8 * k := by
  have hbase := base.toNat_lt
  have haddr := toNat_slot h
  rw [inWord_iff (by omega), haddr]
  omega

theorem Memory.read_writeWord_slot (mem : Memory) (w : UInt64) {base c : UInt64} {k : Nat}
    (h : 8 * (k + 1) ≤ base.toNat) (hc : base.toNat - 8 * k ≤ c.toNat) :
    (mem.writeWord (slot base (k + 1)) w).read c = mem.read c := by
  apply read_writeWord_of_not_inWord
  rw [inWord_slot_iff h]
  omega

theorem Memory.readWord_writeWord_slot (mem : Memory) (w : UInt64) {base a : UInt64} {k : Nat}
    (h : 8 * (k + 1) ≤ base.toNat) (ha : base.toNat - 8 * k ≤ a.toNat)
    (hend : a.toNat + 8 ≤ 2 ^ 64) :
    (mem.writeWord (slot base (k + 1)) w).readWord a = mem.readWord a := by
  apply readWord_congr
  intro c hc
  have hlow := ((inWord_iff hend).1 hc).1
  exact read_writeWord_slot mem w h (ha.trans hlow)

namespace Machine

@[simp] theorem rsp_setXmm (m : Machine) (r : Xmm) (w : UInt64) : (m.setXmm r w).rsp = m.rsp := rfl

@[simp] theorem rbp_setXmm (m : Machine) (r : Xmm) (w : UInt64) : (m.setXmm r w).rbp = m.rbp := rfl

@[simp] theorem memory_setXmm (m : Machine) (r : Xmm) (w : UInt64) :
    (m.setXmm r w).memory = m.memory := rfl

@[simp] theorem calls_setXmm (m : Machine) (r : Xmm) (w : UInt64) :
    (m.setXmm r w).calls = m.calls := rfl

theorem getXmm_setXmm (m : Machine) (r s : Xmm) (w : UInt64) :
    (m.setXmm r w).getXmm s = if r = s then w else m.getXmm s := by
  simp only [getXmm, setXmm, Xmm.update, Vector.get_eq_getElem, Vector.getElem_set, Fin.ext_iff]

/-- The inputs are in place and `n` words are below them. -/
structure AtDepth (base x y : UInt64) (n : Nat) (m : Machine) : Prop where
  rbp : m.rbp = base
  rsp : m.rsp = slot base (n + 2)
  xWord : m.memory.readWord (slot base 1) = x
  yWord : m.memory.readWord (slot base 2) = y

/-- From the stack pointer of `m` up, the memory is the same. -/
def SameAbove (m m' : Machine) : Prop :=
  ∀ a, m.rsp ≤ a → m'.memory.read a = m.memory.read a

/-- What a part of a routine keeps when the registers of a pool are in use. -/
structure Keeps (p : Code.Pool) (m m' : Machine) : Prop where
  rsp : m'.rsp = m.rsp
  rbp : m'.rbp = m.rbp
  above : m.SameAbove m'
  xmm : ∀ r, p.isUsed r = true → m'.getXmm r = m.getXmm r

theorem SameAbove.trans {m m₁ m₂ : Machine} (h : m.SameAbove m₁) (hrsp : m₁.rsp ≤ m.rsp)
    (h' : m₁.SameAbove m₂) : m.SameAbove m₂ :=
  fun a ha ↦ (h' a (UInt64.le_trans hrsp ha)).trans (h a ha)

theorem SameAbove.readWord {m m' : Machine} (h : m.SameAbove m') {a : UInt64} (ha : m.rsp ≤ a)
    (hend : a.toNat + 8 ≤ 2 ^ 64) : m'.memory.readWord a = m.memory.readWord a := by
  apply Memory.readWord_congr
  intro c hc
  exact h c (UInt64.le_trans ha (le_of_inWord hend hc))

theorem SameAbove.readWord_slot {m m' : Machine} (h : m.SameAbove m') {base : UInt64} {n k : Nat}
    (hrsp : m.rsp = slot base n) (hk : k < n) (hroom : 8 * n ≤ base.toNat) :
    m'.memory.readWord (slot base (k + 1)) = m.memory.readWord (slot base (k + 1)) := by
  have hbase := base.toNat_lt
  have hslot : (slot base (k + 1)).toNat = base.toNat - 8 * (k + 1) := toNat_slot (by omega)
  apply h.readWord
  · rw [hrsp]
    exact slot_le_slot hk hroom
  · omega

/-- A machine whose stack pointer is where `AtDepth` wants it has the inputs in place if they were
in place before, with the same memory above the old stack pointer. -/
theorem AtDepth.of_sameAbove {base x y : UInt64} {n k : Nat} {m m' : Machine}
    (hm : m.AtDepth base x y n) (hroom : 8 * (n + 2) ≤ base.toNat) (habove : m.SameAbove m')
    (hrbp : m'.rbp = m.rbp) (hrsp : m'.rsp = slot base (k + 2)) : m'.AtDepth base x y k where
  rbp := hrbp.trans hm.rbp
  rsp := hrsp
  xWord := (habove.readWord_slot (k := 0) hm.rsp (by omega) hroom).trans hm.xWord
  yWord := (habove.readWord_slot (k := 1) hm.rsp (by omega) hroom).trans hm.yWord

theorem AtDepth.of_keeps {base x y : UInt64} {n : Nat} {p : Code.Pool} {m m' : Machine}
    (hm : m.AtDepth base x y n) (hroom : 8 * (n + 2) ≤ base.toNat) (h : m.Keeps p m') :
    m'.AtDepth base x y n :=
  hm.of_sameAbove hroom h.above h.rbp (h.rsp.trans hm.rsp)

theorem AtDepth.readWord_effective {base x y : UInt64} {n : Nat} {m : Machine}
    (hm : m.AtDepth base x y n) (v : Var) :
    m.memory.readWord (m.effective .rbp v.slot) = match v with | .x => x | .y => y := by
  have haddr : m.effective .rbp v.slot = base + v.slot.toInt64.toUInt64 := by
    rw [← hm.rbp]
    rfl
  rw [haddr, add_slot]
  cases v with
  | x => exact hm.xWord
  | y => exact hm.yWord

end Machine

end X86

namespace Code

open X86 Machine

namespace Pool

/-- The registers that values are computed in are never in use. -/
def WorkFree (p : Pool) : Prop := p.isUsed xmm0 = false ∧ p.isUsed xmm1 = false

def Idle (p : Pool) : Prop := ∀ r, p.isUsed r = false

theorem idle_new (enabled : Bool) : (new enabled).Idle := by
  intro r
  simp [isUsed, new, Vector.get_eq_getElem]

theorem ne_work_of_mem_registers {r : Xmm} (h : r ∈ registers) : r ≠ xmm0 ∧ r ≠ xmm1 := by
  revert r
  decide

theorem WorkFree.stash {p : Pool} (h : p.WorkFree) (force : Bool) : (p.stash force).2.WorkFree := by
  rcases p.stash_cases force with hs | ⟨r, hr, -, -, hs⟩
  · rw [hs]
    exact h
  · have hne := ne_work_of_mem_registers hr
    rw [hs]
    exact ⟨by simp [isUsed_take, hne.1, h.1], by simp [isUsed_take, hne.2, h.2]⟩

theorem Idle.stash_true {p : Pool} (h : p.Idle) : (p.stash true).2.Idle := h

theorem isUsed_stash_of_isUsed {p : Pool} {r : Xmm} (h : p.isUsed r = true) (force : Bool) :
    (p.stash force).2.isUsed r = true := by
  rcases p.stash_cases force with hs | ⟨s, -, -, -, hs⟩
  · rw [hs]
    exact h
  · simp [hs, isUsed_take, h]

theorem pendingSpills_stash_le (p : Pool) (force : Bool) :
    (p.stash force).2.pendingSpills ≤ p.pendingSpills + 1 := by
  rcases p.stash_cases force with hs | ⟨r, -, -, -, hs⟩
  · rw [hs]
    rfl
  · rw [hs]
    exact Nat.le_succ _

theorem le_pendingSpills_stash (p : Pool) (force : Bool) :
    p.pendingSpills ≤ (p.stash force).2.pendingSpills := by
  rcases p.stash_cases force with hs | ⟨r, -, -, -, hs⟩
  · rw [hs]
    exact Nat.le_succ _
  · rw [hs]
    rfl

end Pool

theorem Pool.WorkFree.ne_of_isUsed {p : Pool} (h : p.WorkFree) {r : Xmm} (hr : p.isUsed r = true) :
    r ≠ xmm0 ∧ r ≠ xmm1 := by
  constructor
  · rintro rfl
    exact Bool.false_ne_true (h.1.symm.trans hr)
  · rintro rfl
    exact Bool.false_ne_true (h.2.symm.trans hr)

/-- The value `v` is parked at the handle; one that is on the stack is on top of it. -/
def Handle.Holds (m : Machine) (v : UInt64) : Handle → Prop
  | .register n => m.getXmm (Xmm.ofNat n) = v
  | .spill => m.memory.readWord m.rsp = v

variable (model : CallModel) {p : Pool} {force : Bool} {m : Machine} {base x y : UInt64}

theorem exists_steps_park (force : Bool) (hm : m.AtDepth base x y p.pendingSpills)
    (hroom : 8 * (p.pendingSpills + 3) ≤ base.toNat) :
    ∃ m', steps model (Pool.park (p.stash force).1) m = .ok m' ∧
      m'.AtDepth base x y (p.stash force).2.pendingSpills ∧
      (p.stash force).1.Holds m' (m.getXmm xmm0) ∧ m.SameAbove m' ∧
      (∀ r, p.isUsed r = true → m'.getXmm r = m.getXmm r) ∧ m'.calls = m.calls := by
  rcases p.stash_cases force with hs | ⟨r, hr, -, hfree, hs⟩
  · rw [hs]
    let m₁ : Machine := ⟨m.getXmm xmm0, m.rsp - 8, m.rbp, m.xmm,
      m.memory.writeWord (m.rsp - 8) (m.getXmm xmm0), m.calls⟩
    have hrsp : m.rsp - 8 = slot base (p.pendingSpills + 3) := by rw [hm.rsp, slot_sub_eight]
    have habove : m.SameAbove m₁ := by
      intro a ha
      rw [UInt64.le_iff_toNat_le, hm.rsp, toNat_slot (by omega)] at ha
      simp only [m₁, hrsp]
      exact Memory.read_writeWord_slot _ _ hroom ha
    exact ⟨m₁, rfl, hm.of_sameAbove (by omega) habove rfl hrsp,
      Memory.readWord_writeWord _ _ _, habove, fun _ _ ↦ rfl, rfl⟩
  · rw [hs]
    refine ⟨m.setXmm (Xmm.ofNat r) (m.getXmm xmm0), rfl, ⟨hm.rbp, hm.rsp, hm.xWord, hm.yWord⟩, ?_,
      fun _ _ ↦ rfl, ?_, rfl⟩
    · simp [Handle.Holds, getXmm_setXmm]
    · intro s hused
      have hne : Xmm.ofNat r ≠ s := by
        have hself : Xmm.ofNat r = r := Fin.ext (Nat.mod_eq_of_lt r.isLt)
        rintro rfl
        rw [hself, hfree] at hused
        cases hused
      rw [getXmm_setXmm, if_neg hne]

/-- What is parked stays parked while the machine keeps what the pool has in use. -/
theorem Handle.Holds.of_keeps {m' : Machine} {v : UInt64} (h : (p.stash force).1.Holds m v)
    (hm : m.AtDepth base x y (p.stash force).2.pendingSpills)
    (hroom : 8 * (p.pendingSpills + 3) ≤ base.toNat) (hkeep : m.Keeps (p.stash force).2 m') :
    (p.stash force).1.Holds m' v := by
  rcases p.stash_cases force with hs | ⟨r, -, -, -, hs⟩
  · rw [hs] at h hm hkeep ⊢
    have hrsp : m.rsp = slot base (p.pendingSpills + 3) := hm.rsp
    have hword := hkeep.above.readWord_slot (k := p.pendingSpills + 2) hrsp (by omega) hroom
    rw [← hrsp] at hword
    simp only [Handle.Holds, hkeep.rsp] at h ⊢
    exact hword.trans h
  · rw [hs] at h hkeep ⊢
    have hself : Xmm.ofNat r = r := Fin.ext (Nat.mod_eq_of_lt r.isLt)
    simp only [Handle.Holds, hself] at h ⊢
    exact (hkeep.xmm r (by simp [Pool.isUsed_take])).trans h

/-- Where the stack pointer is once a parked value is taken back. -/
def Handle.rspAfter (m : Machine) : Handle → UInt64
  | .register _ => m.rsp
  | .spill => m.rsp + 8

theorem Handle.rspAfter_stash (hm : m.AtDepth base x y (p.stash force).2.pendingSpills) :
    (p.stash force).1.rspAfter m = slot base (p.pendingSpills + 2) := by
  rcases p.stash_cases force with hs | ⟨r, -, -, -, hs⟩
  · rw [hs] at hm ⊢
    have hrsp : m.rsp = slot base (p.pendingSpills + 2 + 1) := hm.rsp
    rw [Handle.rspAfter, hrsp, slot_add_eight]
  · rw [hs] at hm ⊢
    exact hm.rsp

theorem Handle.ne_xmm1_of_stash {n : Nat} (h : (p.stash force).1 = .register n) :
    Xmm.ofNat n ≠ xmm1 := by
  rcases p.stash_cases force with hs | ⟨r, hr, -, -, hs⟩
  · rw [hs] at h
    cases h
  · rw [hs] at h
    cases h
    have hself : Xmm.ofNat r = r := Fin.ext (Nat.mod_eq_of_lt r.isLt)
    rw [hself]
    exact (Pool.ne_work_of_mem_registers hr).2

theorem exists_steps_restore {h : Handle} {v : UInt64} (hv : h.Holds m v) (dest : Nat) :
    ∃ m', steps model (Pool.restore h dest) m = .ok m' ∧ m'.getXmm (Xmm.ofNat dest) = v ∧
      m'.rsp = h.rspAfter m ∧ m'.rbp = m.rbp ∧ m'.memory = m.memory ∧ m'.calls = m.calls ∧
      ∀ r, r ≠ Xmm.ofNat dest → m'.getXmm r = m.getXmm r := by
  cases h with
  | register n =>
      refine ⟨m.setXmm (Xmm.ofNat dest) (m.getXmm (Xmm.ofNat n)), rfl, ?_, rfl, rfl, rfl, rfl, ?_⟩
      · rw [getXmm_setXmm, if_pos rfl]
        exact hv
      · intro r hr
        rw [getXmm_setXmm, if_neg hr.symm]
  | spill =>
      refine ⟨setXmm ⟨m.memory.readWord m.rsp, m.rsp + 8, m.rbp, m.xmm, m.memory, m.calls⟩
        (Xmm.ofNat dest) (m.memory.readWord m.rsp), rfl, ?_, rfl, by simp, by simp, by simp, ?_⟩
      · rw [getXmm_setXmm, if_pos rfl]
        exact hv
      · intro r hr
        rw [getXmm_setXmm, if_neg hr.symm, getXmm, getXmm]

theorem exists_steps_combineCode (op : BinOp) (leftFirst : Bool) {h : Handle} {v : UInt64}
    (hv : h.Holds m v) (hreg : ∀ n, h = .register n → Xmm.ofNat n ≠ xmm1) :
    ∃ m', steps model (Emitter.combineCode op leftFirst h) m = .ok m' ∧
      m'.getXmm xmm0 =
        (if leftFirst then arith op v (m.getXmm xmm0) else arith op (m.getXmm xmm0) v) ∧
      m'.rsp = h.rspAfter m ∧ m'.rbp = m.rbp ∧ m'.memory = m.memory ∧ m'.calls = m.calls ∧
      ∀ r, r ≠ xmm0 → r ≠ xmm1 → m'.getXmm r = m.getXmm r := by
  have hdiff : xmm1 ≠ xmm0 := by decide
  let apply (m : Machine) : Machine := m.setXmm xmm0 (arith op (m.getXmm xmm0) (m.getXmm xmm1))
  have happly : ∀ m, steps model [.arith op xmm0 xmm1] m = .ok (apply m) := fun _ ↦ rfl
  cases leftFirst with
  | true =>
      -- The right operand goes to `xmm1`, then the left one comes back to `xmm0`.
      let m₁ : Machine := m.setXmm xmm1 (m.getXmm xmm0)
      have hv₁ : h.Holds m₁ v := by
        cases h with
        | register n =>
            rw [Handle.Holds, getXmm_setXmm, if_neg (hreg n rfl).symm]
            exact hv
        | spill => exact hv
      obtain ⟨m₂, hsteps, hxmm, hrsp, hrbp, hmem, hcalls, hother⟩ :=
        exists_steps_restore model hv₁ 0
      have hright : m₂.getXmm xmm1 = m.getXmm xmm0 := by
        rw [hother xmm1 hdiff, getXmm_setXmm, if_pos rfl]
      have haside : steps model [.movsd xmm1 xmm0] m = .ok m₁ := rfl
      refine ⟨apply m₂, ?_, ?_, hrsp.trans (by cases h <;> rfl), hrbp, hmem, hcalls, ?_⟩
      · exact (steps_append_of_ok ((steps_append_of_ok haside).trans hsteps)).trans (happly m₂)
      · have hleft : m₂.getXmm xmm0 = v := hxmm
        rw [getXmm_setXmm, if_pos rfl, hleft, hright, if_pos rfl]
      · intro r hr₀ hr₁
        rw [getXmm_setXmm, if_neg hr₀.symm, hother r hr₀, getXmm_setXmm, if_neg hr₁.symm]
  | false =>
      obtain ⟨m₂, hsteps, hxmm, hrsp, hrbp, hmem, hcalls, hother⟩ :=
        exists_steps_restore model hv 1
      refine ⟨apply m₂, ?_, ?_, hrsp, hrbp, hmem, hcalls, ?_⟩
      · exact (steps_append_of_ok hsteps).trans (happly m₂)
      · have hright : m₂.getXmm xmm1 = v := hxmm
        rw [getXmm_setXmm, if_pos rfl, hother xmm0 hdiff.symm, hright, if_neg (by decide)]
      · intro r hr₀ hr₁
        rw [getXmm_setXmm, if_neg hr₀.symm, hother r hr₁]

/-- The first instructions of a routine put the frame pointer under the caller's one and the inputs
under the frame pointer. -/
theorem exists_steps_prologue (hroom : 24 ≤ m.rsp.toNat) :
    ∃ m', steps model Emitter.prologue m = .ok m' ∧
      m'.AtDepth (m.rsp - 8) (m.getXmm xmm0) (m.getXmm xmm1) 0 ∧
      m'.memory.readWord (m.rsp - 8) = m.rbp ∧ m.SameAbove m' ∧ m'.calls = m.calls := by
  let base := m.rsp - 8
  have hrsp := m.rsp.toNat_lt
  have hbase : base.toNat = m.rsp.toNat - 8 := toNat_sub_eight (by omega)
  let saved := m.memory.writeWord base m.rbp
  let withX := saved.writeWord (slot base 1) (m.getXmm xmm0)
  let withY := withX.writeWord (slot base 2) (m.getXmm xmm1)
  have hdepth : base - (16 : Int32).toInt64.toUInt64 = slot base 2 := by
    rw [slot, show (16 : Int32).toInt64.toUInt64 = UInt64.ofNat (8 * 2) by decide]
  have hsteps : steps model Emitter.prologue m =
      .ok ⟨m.rax, slot base 2, base, m.xmm, withY, m.calls⟩ := by
    rw [← hdepth]
    simp only [withY, withX, ← add_slot base .x, ← add_slot base .y]
    rfl
  refine ⟨_, hsteps, ⟨rfl, rfl, ?_, Memory.readWord_writeWord _ _ _⟩, ?_, ?_, rfl⟩
  · have hx : (slot base 1).toNat = base.toNat - 8 := toNat_slot (by omega)
    calc withY.readWord (slot base 1)
      _ = withX.readWord (slot base 1) :=
          Memory.readWord_writeWord_slot _ _ (by omega) (by omega) (by omega)
      _ = m.getXmm xmm0 := Memory.readWord_writeWord _ _ _
  · calc withY.readWord base
      _ = withX.readWord base :=
          Memory.readWord_writeWord_slot _ _ (by omega) (by omega) (by omega)
      _ = saved.readWord base :=
          Memory.readWord_writeWord_slot (k := 0) _ _ (by omega) (by omega) (by omega)
      _ = m.rbp := Memory.readWord_writeWord _ _ _
  · intro a ha
    have hup : m.rsp.toNat ≤ a.toNat := UInt64.le_iff_toNat_le.1 ha
    have hsaved : saved.read a = m.memory.read a := by
      apply Memory.read_writeWord_of_not_inWord
      rw [inWord_iff (by omega)]
      omega
    rw [← hsaved]
    exact (Memory.read_writeWord_slot _ _ (by omega) (by omega)).trans
      (Memory.read_writeWord_slot (k := 0) _ _ (by omega) (by omega))

theorem rsp_add_of_atDepth (hm : m.AtDepth base x y 0) :
    m.rsp + (16 : Int32).toInt64.toUInt64 = base := by
  rw [hm.rsp, slot, show (16 : Int32).toInt64.toUInt64 = UInt64.ofNat (8 * 2) by decide,
    sub_add_cancel]

/-- The last instructions of a routine bring the caller's frame pointer back. -/
theorem exists_steps_epilogue (hm : m.AtDepth base x y 0) :
    ∃ m', steps model [.addImm .rsp 16, .pop .rbp] m = .ok m' ∧ m'.rsp = base + 8 ∧
      m'.rbp = m.memory.readWord base ∧ m'.memory = m.memory ∧ m'.calls = m.calls ∧
      m'.xmm = m.xmm := by
  refine ⟨⟨m.rax, base + 8, m.memory.readWord base, m.xmm, m.memory, m.calls⟩, ?_, rfl, rfl, rfl,
    rfl, rfl⟩
  rw [← rsp_add_of_atDepth hm]
  rfl

end Code

end Formula
