import Formula.Proofs.Code.Needs

/-!
# The calling convention

A routine keeps its side of the calling convention as long as the functions that it calls keep
theirs. The stack is aligned at each call, and what is needed behind the call is where the function
must keep it. Between its first and its last instructions the stack pointer stays below the inputs,
which keep their values, and the memory from the caller's stack pointer up is never written.
-/

namespace Formula

open X86 Machine

namespace X86

/-- The functions of a table return, whatever they give. -/
def Machine.CallModel.Returning (model : CallModel) (t : FunctionTable) : Prop :=
  ∀ name f, t.get? name = some f → ∀ m, ∃ m' w, model f.address m = some m' ∧ m.Returns w m'

theorem Machine.CallModel.Returning.follows {model : CallModel} {t : FunctionTable}
    (h : model.Returning t) : model.Follows t fun _ _ _ _ ↦ True := by
  intro name f hf m
  obtain ⟨m', w, hcall, hret⟩ := h name f hf m
  exact ⟨m', w, hcall, trivial, hret⟩

namespace Point

/-- The point is behind the first instructions of the code, and the last ones are all ahead. -/
def InBody (code : List UInt8) (p : Point) : Prop :=
  (encodeAll Code.Emitter.epilogue).length ≤ p.code.length ∧
    p.code.length + (encodeAll Code.Emitter.prologue).length ≤ code.length

/-- A call can be made from the point. -/
structure CallReady (model : CallModel) (p : Point) : Prop where
  aligned : p.machine.rsp.toNat % 16 = 0
  registers : ∀ r ∈ Code.Pool.registers, ¬ p.Needs model (.xmm r)
  stack : ∀ a, p.Needs model (.byte a) → p.machine.rsp ≤ a

/-- The frame of a routine that was entered with the machine `m` is whole at the point. -/
structure FrameWhole (m : Machine) (p : Point) : Prop where
  rbp : p.machine.rbp = m.rsp - 8
  rsp : p.machine.rsp.toNat + 16 ≤ p.machine.rbp.toNat
  pop : ∀ r a, p.next? = some (.pop r) → p.machine.Reads (.pop r) (.byte a) →
    a.toNat + 16 < p.machine.rbp.toNat
  xWord : p.machine.memory.readWord (p.machine.rbp - 8) = m.getXmm xmm0
  yWord : p.machine.memory.readWord (p.machine.rbp - 16) = m.getXmm xmm1

end Point

end X86

namespace Code

variable {model : CallModel} {t : FunctionTable} {B : Behaviour} {m : Machine} {s : Switches}
  {P : Plan}

/-- Behind the body of a routine only the caller's frame pointer, the return address and the result
are needed. -/
theorem survives_of_needs_epilogue {base x y : UInt64} (hm : m.AtDepth base x y 0)
    (hroom : 16 ≤ base.toNat) (hend : base.toNat + 16 ≤ 2 ^ 64) {pl : Place}
    (hneeds : Needs model Emitter.epilogue m pl) : pl.Survives (slot base 2) := by
  have hlow : slot base 2 ≤ base := by
    rw [UInt64.le_iff_toNat_le, toNat_slot (by omega)]
    omega
  rcases hneeds with hread | ⟨-, m₁, hstep₁, hread | ⟨-, m₂, hstep₂, hread | ⟨-, _, -, hneeds⟩⟩⟩
  · cases pl <;> exact hread.elim
  · have hrsp : m₁.rsp = base := by
      rw [← Except.ok.inj hstep₁]
      exact rsp_add_of_atDepth hm
    cases pl with
    | xmm r => exact hread.elim
    | byte a =>
        have ha : InWord m₁.rsp a := hread
        rw [hrsp] at ha
        exact UInt64.le_trans hlow (le_of_inWord (by omega) ha)
  · have hrsp : m₂.rsp = base + 8 := by
      rw [← Except.ok.inj hstep₂, ← Except.ok.inj hstep₁, ← rsp_add_of_atDepth hm]
      rfl
    have hnext : (base + 8).toNat = base.toNat + 8 := by
      rw [UInt64.toNat_add]
      exact Nat.mod_eq_of_lt (by simp; omega)
    cases pl with
    | xmm r => exact hread
    | byte a =>
        have ha : InWord m₂.rsp a := hread
        rw [hrsp] at ha
        have hle : base ≤ base + 8 := UInt64.le_iff_toNat_le.2 (by omega)
        exact UInt64.le_trans hlow (UInt64.le_trans hle (le_of_inWord (by omega) ha))
  · exact hneeds.elim

theorem atDepth_of_steps_prologue (hroom : 24 ≤ m.rsp.toNat) {m' : Machine}
    (hsteps : steps model Emitter.prologue m = .ok m') :
    m'.AtDepth (m.rsp - 8) (m.getXmm xmm0) (m.getXmm xmm1) 0 := by
  obtain ⟨m₁, hsteps₁, hm₁, -⟩ := exists_steps_prologue model hroom
  obtain rfl : m₁ = m' := Except.ok.inj (hsteps₁.symm.trans hsteps)
  exact hm₁

theorem lt_of_inWord_slot {base a : UInt64} {k : Nat} (hk : 8 * (k + 1) ≤ base.toNat)
    (ha : InWord (slot base (k + 1)) a) : a < base :=
  UInt64.lt_iff_toNat_lt.2 (by have := (inWord_slot_iff hk).1 ha; omega)

theorem along_prologue_writes (hroom : 24 ≤ m.rsp.toNat) :
    Along model (fun m' i _ ↦ ∀ a, m'.Writes i (.byte a) → a < m.rsp) Emitter.prologue m := by
  have hbase : (m.rsp - 8).toNat = m.rsp.toNat - 8 := toNat_sub_eight (by omega)
  have hlow : m.rsp - 8 < m.rsp := UInt64.lt_iff_toNat_lt.2 (by omega)
  have hstore : ∀ (m' : Machine) (v : Var) src, m'.rbp = m.rsp - 8 → ∀ a,
      m'.Writes (.movsdStore .rbp v.slot src) (.byte a) → a < m.rsp := by
    intro m' v src hrbp a ha
    have ha : InWord (m'.rbp + v.slot.toInt64.toUInt64) a := ha
    rw [hrbp, add_slot] at ha
    refine UInt64.lt_trans ?_ hlow
    cases v with
    | x => exact lt_of_inWord_slot (k := 0) (by omega) ha
    | y => exact lt_of_inWord_slot (k := 1) (by omega) ha
  refine ⟨?_, fun m₁ hstep₁ ↦ ⟨fun _ h ↦ h.elim, fun m₂ hstep₂ ↦ ⟨fun _ h ↦ h.elim,
    fun m₃ hstep₃ ↦ ⟨hstore m₃ .x _ ?_, fun m₄ hstep₄ ↦ ⟨hstore m₄ .y _ ?_,
      fun _ _ ↦ trivial⟩⟩⟩⟩⟩
  · intro a ha
    have ha := (inWord_iff (by have := m.rsp.toNat_lt; omega)).1 ha
    exact UInt64.lt_iff_toNat_lt.2 (by omega)
  · cases hstep₁
    cases hstep₂
    cases hstep₃
    rfl
  · cases hstep₁
    cases hstep₂
    cases hstep₃
    cases hstep₄
    rfl

theorem lt_of_writes_inFrame {base x y a : UInt64} {i : Instr} {ahead : List Instr}
    (h : m.InFrame t base x y i ahead) (hwrite : m.Writes i (.byte a)) : a < base := by
  obtain ⟨n, hm, -, hsuits⟩ := h
  cases i with
  | push r =>
      have ha : InWord (m.rsp - 8) a := hwrite
      rw [hm.rsp, slot_sub_eight] at ha
      exact lt_of_inWord_slot hsuits ha
  | movsdStore b disp src => exact hsuits.elim
  | _ => exact hwrite.elim

theorem step_eq_exec_or_call (model : CallModel) (m : Machine) (i : Instr) :
    (∃ r, i = .call r) ∨ m.step model i = .ok (m.exec i) := by
  cases i with
  | call r => exact .inl ⟨r, rfl⟩
  | _ => exact .inr rfl

theorem toNat_rsp_of_atDepth {base x y : UInt64} {n : Nat} (hm : m.AtDepth base x y n)
    (hroom : 8 * (n + 2) ≤ base.toNat) : m.rsp.toNat = base.toNat - 8 * (n + 2) := by
  rw [hm.rsp, toNat_slot hroom]

section Routine

variable (hmodel : model.Follows t B) (hsafe : P.Safe) (hknown : P.tree.Known t)
  (hroom : 8 * (P.tree.height + 3) ≤ m.rsp.toNat)

include hmodel hsafe hknown hroom

theorem along_routineCode_callsSafely (halign : m.rsp.toNat % 16 = 8) :
    Along model (CallsSafely model) (routineCode t s P) m := by
  have hfits := P.fits_of_room hsafe hknown s.useRegisters hroom
  have hrsp := m.rsp.toNat_lt
  have hbase : (m.rsp - 8).toNat = m.rsp.toNat - 8 := toNat_sub_eight (by omega)
  refine Along.append ?_ fun m₁ hsteps₁ ↦ Along.append ?_ fun m₂ hsteps₂ ↦ ?_
  · exact along_of_no_call (by simp [Emitter.prologue]) _ m
  · have hm₁ := atDepth_of_steps_prologue (by omega) hsteps₁
    refine Plan.along_code_callsSafely hmodel hfits hm₁ fun _ m₂ pl hsteps₂ hneeds ↦ ?_
    have hm₂ := Plan.atDepth_of_steps hmodel hfits hm₁ hsteps₂
    exact survives_of_needs_epilogue hm₂ (by omega) (by omega) hneeds
  · exact along_of_no_call (by simp [Emitter.epilogue]) id m₂

/-- Between its first and its last instructions, and at each call, a routine is in its frame. -/
theorem along_routineCode_inFrame :
    Along model (fun m' i ahead ↦
      Point.InBody (encodeAll (routineCode t s P)) ⟨encodeAll (i :: ahead), m'⟩ ∨
          (∃ r, i = .call r) →
        m'.InFrame t (m.rsp - 8) (m.getXmm xmm0) (m.getXmm xmm1) i ahead)
      (routineCode t s P) m := by
  have hfits := P.fits_of_room hsafe hknown s.useRegisters hroom
  have hbase : (m.rsp - 8).toNat = m.rsp.toNat - 8 := toNat_sub_eight (by omega)
  refine Along.append ?_ fun m₁ hsteps₁ ↦ Along.append ?_ fun m₂ hsteps₂ ↦ ?_
  · -- In front of one of the first instructions, too many bytes are ahead.
    apply along_of_forall
    rintro m' i hi ahead (⟨-, hlen⟩ | ⟨r, rfl⟩)
    · have hpos := length_encode_pos i
      simp only [routineCode, encodeAll_append, encodeAll_cons, List.length_append] at hlen
      omega
    · simp [Emitter.prologue] at hi
  · have hm₁ := atDepth_of_steps_prologue (by omega) hsteps₁
    exact (Plan.along_code_inFrame hmodel hfits hm₁).imp fun _ _ _ h _ ↦ h
  · have hm₁ := atDepth_of_steps_prologue (by omega) hsteps₁
    have hm₂ := Plan.atDepth_of_steps hmodel hfits hm₁ hsteps₂
    refine ⟨fun _ ↦ ⟨0, hm₂, by omega, trivial⟩, fun _ _ ↦ ⟨?_, fun _ _ ↦ ⟨?_, fun _ _ ↦ trivial⟩⟩⟩
    · rintro (⟨hlen, -⟩ | ⟨r, ⟨⟩⟩)
      have hshort :
          ¬(encodeAll Emitter.epilogue).length ≤ (encodeAll [.pop .rbp, .ret]).length := by decide
      exact absurd hlen hshort
    · rintro (⟨hlen, -⟩ | ⟨r, ⟨⟩⟩)
      have hshort : ¬(encodeAll Emitter.epilogue).length ≤ (encodeAll [.ret]).length := by decide
      exact absurd hlen hshort

/-- A routine writes under the stack pointer that it is entered with. -/
theorem along_routineCode_writes :
    Along model (fun m' i _ ↦ ∀ a, m'.Writes i (.byte a) → a < m.rsp) (routineCode t s P) m := by
  have hfits := P.fits_of_room hsafe hknown s.useRegisters hroom
  have hbase : (m.rsp - 8).toNat = m.rsp.toNat - 8 := toNat_sub_eight (by omega)
  have hlow : m.rsp - 8 < m.rsp := UInt64.lt_iff_toNat_lt.2 (by omega)
  refine Along.append ?_ fun m₁ hsteps₁ ↦ Along.append ?_ fun m₂ hsteps₂ ↦ ?_
  · exact along_prologue_writes (by omega)
  · have hm₁ := atDepth_of_steps_prologue (by omega) hsteps₁
    refine (Plan.along_code_inFrame hmodel hfits hm₁).imp fun m' i ahead h a hwrite ↦ ?_
    exact UInt64.lt_trans (lt_of_writes_inFrame h hwrite) hlow
  · refine along_of_forall (fun m' i hi ahead a hwrite ↦ ?_) m₂
    simp only [Emitter.epilogue, List.mem_cons, List.not_mem_nil, or_false] at hi
    rcases hi with rfl | rfl | rfl <;> exact hwrite.elim

theorem sameAbove_of_reaches {p : Point}
    (hp : Point.Reaches model ⟨encodeAll (routineCode t s P), m⟩ p) : m.SameAbove p.machine := by
  have hbase : (m.rsp - 8).toNat = m.rsp.toNat - 8 := toNat_sub_eight (by omega)
  induction hp with
  | refl => exact fun _ _ ↦ rfl
  | @tail q p hq hstep ih =>
      obtain @⟨code, rest, m₁, m₂, i, hdecode, -, hstep⟩ := hstep
      have hnext : Point.next? ⟨code, m₁⟩ = some i := by simp [Point.next?, hdecode]
      rcases step_eq_exec_or_call model m₁ i with ⟨r, rfl⟩ | hexec
      · -- A function keeps what is above its own stack pointer, which is below the caller's.
        obtain ⟨_, -, hframe⟩ :=
          Point.of_along (along_routineCode_inFrame hmodel hsafe hknown hroom) hq hnext
        obtain ⟨n, hm₁, hn, rfl, -, name, f, hf, hrax⟩ := hframe (.inr ⟨r, rfl⟩)
        obtain ⟨w, hret⟩ := returns_of_step_call hmodel hf hrax hstep
        have hrsp := toNat_rsp_of_atDepth hm₁ hn
        exact ih.trans (UInt64.le_iff_toNat_le.2 (by omega)) hret.above
      · obtain rfl : m₁.exec i = m₂ := Except.ok.inj (hexec.symm.trans hstep)
        obtain ⟨_, -, hwrites⟩ :=
          Point.of_along (along_routineCode_writes hmodel hsafe hknown hroom) hq hnext
        intro a ha
        have hnot : ¬ m₁.Writes i (.byte a) := fun h ↦ UInt64.not_lt.2 ha (hwrites a h)
        exact (read_exec_of_not_writes hnot).trans (ih a ha)

/-- When a routine comes to its return, it has kept what a function must keep. -/
theorem returns_of_reaches_ret {p : Point}
    (hp : Point.Reaches model ⟨encodeAll (routineCode t s P), m⟩ p) (hnext : p.next? = some .ret) :
    m.Returns (p.machine.getXmm xmm0) p.machine := by
  obtain ⟨before, ahead, heq, -, hcode, hsteps⟩ := Point.reaches_encodeAll_iff.1 hp
  obtain ⟨code, m'⟩ := p
  simp only at hcode hsteps
  subst hcode
  obtain ⟨js, rfl⟩ := Point.eq_cons_of_next? hnext
  rw [routineCode_eq] at heq
  obtain ⟨rfl, -⟩ :=
    (List.append_cons_inj_of_notMem (ret_not_mem_routineBody t s P) List.not_mem_nil).1 heq
  obtain ⟨m₁, hsteps₁, hret, -⟩ := exists_steps_routineBody hmodel hsafe hknown s hroom
  obtain rfl : m₁ = m' := Except.ok.inj (hsteps₁.symm.trans hsteps)
  exact hret

end Routine

theorem callReady_of_sits {x y : UInt64} {n : Nat} {p : Point} {r : Reg}
    (halign : m.rsp.toNat % 16 = 8) (hbase : (m.rsp - 8).toNat = m.rsp.toNat - 8)
    (hsits : p.machine.Sits t (m.rsp - 8) x y (.call r) n)
    (hneeds : ∀ pl, p.Needs model pl → pl.Survives p.machine.rsp) : p.CallReady model where
  aligned := by
    have hrsp := toNat_rsp_of_atDepth hsits.depth hsits.room
    have heven := hsits.suits.2.1
    omega
  registers r hr hneed := (Pool.ne_work_of_mem_registers hr).1 (hneeds _ hneed)
  stack _ hneed := hneeds _ hneed

theorem frameWhole_of_sits {n : Nat} {p : Point} {i : Instr} (hnext : p.next? = some i)
    (hsits : p.machine.Sits t (m.rsp - 8) (m.getXmm xmm0) (m.getXmm xmm1) i n) :
    p.FrameWhole m := by
  obtain ⟨hm, hroom, hsuits⟩ := hsits
  have hrsp := toNat_rsp_of_atDepth hm hroom
  have hbase := (m.rsp - 8).toNat_lt
  refine ⟨hm.rbp, by rw [hm.rbp]; omega, fun r a hpop ha ↦ ?_, ?_, ?_⟩
  · obtain rfl : i = .pop r := Option.some.inj (hnext.symm.trans hpop)
    have hn : 0 < n := hsuits
    have hword := (inWord_iff (by omega)).1 ha
    rw [hm.rbp]
    omega
  · rw [hm.rbp]
    exact hm.xWord
  · rw [hm.rbp]
    exact hm.yWord

theorem exists_next?_of_inBody {is : List Instr} {code : List UInt8} {p : Point}
    (hp : Point.Reaches model ⟨encodeAll is, m⟩ p) (hbody : p.InBody code) :
    ∃ i, p.next? = some i := by
  obtain ⟨-, ahead, -, -, hcode, -⟩ := Point.reaches_encodeAll_iff.1 hp
  obtain ⟨_, m'⟩ := p
  simp only at hcode
  subst hcode
  cases ahead with
  | nil =>
      have hpos : ¬(encodeAll Emitter.epilogue).length ≤ (encodeAll []).length := by decide
      exact absurd hbody.1 hpos
  | cons i js => exact ⟨i, Point.next?_encodeAll_cons i js m'⟩

/-- From a stack pointer that a call leaves, with room below it for the frame and for one word for
each operation and call on a path, the code of a formula comes to its return. On the way the stack
is aligned at each call, where neither a register of the pool nor the memory below the stack pointer
has a value that is needed later. Between the first and the last instructions the frame is whole. No
instruction writes to the caller's memory, no function that is called changes it, and at the return
the caller's stack and frame pointers are back. -/
theorem assembled_code_keeps_convention {r : RootedGraph} {asm : Assembly}
    (hasm : (assemble r t s).1 = .ok asm) (hmodel : model.Returning t)
    (halign : m.rsp.toNat % 16 = 8) (hroom : 8 * (r.tree.height + 3) ≤ m.rsp.toNat) :
    (∃ m', Point.Reaches model ⟨asm.code.toList, m⟩ ⟨Instr.ret.encode, m'⟩) ∧
      ∀ p, Point.Reaches model ⟨asm.code.toList, m⟩ p →
        (∀ r, p.next? = some (.call r) → r = .rax ∧ p.CallReady model) ∧
        (p.InBody asm.code.toList → p.FrameWhole m) ∧
        (p.next? = some .ret → p.machine.rsp = m.rsp ∧ p.machine.rbp = m.rbp) ∧
        (∀ i a, p.next? = some i → p.machine.Writes i (.byte a) → a < m.rsp) ∧
        m.SameAbove p.machine := by
  have htree := tree_planOf r s
  have hsafe := safe_planOf r s
  have hknown : (planOf r s).tree.Known t := htree ▸ known_of_assemble hasm
  have hfollows := hmodel.follows
  have hroom : 8 * ((planOf r s).tree.height + 3) ≤ m.rsp.toNat := htree ▸ hroom
  have hbase : (m.rsp - 8).toNat = m.rsp.toNat - 8 := toNat_sub_eight (by omega)
  rw [toList_code_of_assemble hasm]
  refine ⟨?_, fun p hp ↦ ⟨fun r hnext ↦ ?_, fun hbody ↦ ?_, fun hnext ↦ ?_, fun i a hnext ↦ ?_, ?_⟩⟩
  · obtain ⟨m', hsteps, -⟩ := exists_steps_routineBody hfollows hsafe hknown s hroom
    rw [routineCode_eq]
    exact ⟨m', Point.reaches_encodeAll_iff.2
      ⟨_, [.ret], rfl, ret_not_mem_routineBody t s _, by simp, hsteps⟩⟩
  · obtain ⟨_, -, hframe⟩ :=
      Point.of_along (along_routineCode_inFrame hfollows hsafe hknown hroom) hp hnext
    obtain ⟨ahead, hcode, hcalls⟩ :=
      Point.of_along (along_routineCode_callsSafely hfollows hsafe hknown hroom halign) hp hnext
    obtain ⟨n, hsits⟩ := hframe (.inr ⟨r, rfl⟩)
    refine ⟨hsits.suits.1, callReady_of_sits halign hbase hsits fun pl hneeds ↦ ?_⟩
    obtain ⟨code, m'⟩ := p
    simp only at hcode
    subst hcode
    exact hcalls r rfl pl hneeds.encodeAll
  · obtain ⟨i, hnext⟩ := exists_next?_of_inBody hp hbody
    obtain ⟨ahead, hcode, hframe⟩ :=
      Point.of_along (along_routineCode_inFrame hfollows hsafe hknown hroom) hp hnext
    rw [Point.InBody, hcode] at hbody
    obtain ⟨n, hsits⟩ := hframe (.inl hbody)
    exact frameWhole_of_sits hnext hsits
  · have hret := returns_of_reaches_ret hfollows hsafe hknown hroom hp hnext
    exact ⟨hret.rsp, hret.rbp⟩
  · obtain ⟨_, -, hwrites⟩ :=
      Point.of_along (along_routineCode_writes hfollows hsafe hknown hroom) hp hnext
    exact hwrites a
  · exact sameAbove_of_reaches hfollows hsafe hknown hroom hp

/-- A formula with calls on both sides, and a function that clears every register. -/
theorem assembled_code_keeps_convention_of_clearing_call :
    let e : Expr := .bin .sub (.call "abs" (.var .x)) (.bin .add (.var .y) (.call "abs" (.var .y)))
    let abs : Native := ⟨1, .abs⟩
    let model : CallModel := fun _ m ↦
      some ⟨0, m.rsp, m.rbp, #v[0, 0, 0, 0, 0, 0, 0, 0], m.memory, []⟩
    model.Returning ⟨[("abs", abs)]⟩ ∧ (entry 2 (-3)).rsp.toNat % 16 = 8 ∧
      ∃ asm, (assemble e.toGraph ⟨[("abs", abs)]⟩ ⟨true, true, true⟩).1 = .ok asm ∧
        (∃ m', Point.Reaches model ⟨asm.code.toList, entry 2 (-3)⟩ ⟨Instr.ret.encode, m'⟩) ∧
        ∀ p, Point.Reaches model ⟨asm.code.toList, entry 2 (-3)⟩ p →
          (∀ r, p.next? = some (.call r) → p.CallReady model) ∧
          (p.InBody asm.code.toList → p.FrameWhole (entry 2 (-3))) := by
  intro e abs model
  have hmodel : model.Returning ⟨[("abs", abs)]⟩ :=
    fun _ _ _ m ↦ ⟨_, 0, rfl, rfl, rfl, rfl, fun _ _ ↦ rfl⟩
  have hknown : e.toGraph.tree.Known ⟨[("abs", abs)]⟩ := by
    rw [e.tree_toGraph]
    simp [e, Expr.tree, Tree.Known, FunctionTable.contains, FunctionTable.get?,
      FunctionTable.lookup]
  obtain ⟨asm, hasm, -⟩ := assemble_of_known ⟨true, true, true⟩ hknown
  have hroom : 8 * (e.toGraph.tree.height + 3) ≤ (entry 2 (-3)).rsp.toNat := by
    rw [e.tree_toGraph]
    decide
  have halign : (entry 2 (-3)).rsp.toNat % 16 = 8 := by decide
  obtain ⟨hret, hall⟩ := assembled_code_keeps_convention hasm hmodel halign hroom
  refine ⟨hmodel, halign, asm, hasm, hret, fun p hp ↦ ?_⟩
  obtain ⟨hcall, hbody, -⟩ := hall p hp
  exact ⟨fun r hnext ↦ (hcall r hnext).2, hbody⟩

end Code

end Formula
