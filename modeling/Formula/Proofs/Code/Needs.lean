import Formula.Proofs.Code.Depth

/-!
# What is needed across a call

The instructions of a plan need nothing but the inputs: what else they read they have written
before. So at a call only parked values are needed besides the inputs, and since a plan is safe
they are on the stack, where the function must keep them.
-/

namespace Formula.Code

open X86 Machine

variable {model : CallModel} {t : FunctionTable} {B : Behaviour} {p : Pool} {m m' : Machine}
  {base x y : UInt64} {pl : Place} {h : Handle}

/-- The place is part of a parked value; one that is on the stack is on top of it. -/
def Handle.Occupies (m : Machine) : Handle → Place → Prop
  | .register n, .xmm r => r = Xmm.ofNat n
  | .spill, .byte a => InWord m.rsp a
  | _, _ => False

theorem Handle.Occupies.of_rsp_eq (hback : h.Occupies m pl) (hrsp : m'.rsp = m.rsp) :
    h.Occupies m' pl := by
  cases h <;> cases pl <;> simp_all [Handle.Occupies]

/-- A value that is parked by force is on the stack, at its top. -/
theorem Handle.Occupies.survives {force : Bool} (hback : (p.stash force).1.Occupies m pl)
    (hforce : force = true) (hend : m.rsp.toNat + 8 ≤ 2 ^ 64) : pl.Survives m.rsp := by
  subst hforce
  cases pl with
  | xmm r => exact hback.elim
  | byte a => exact le_of_inWord hend hback

theorem eq_xmm0_of_needs_park (hneeds : Needs model (Pool.park h) m pl) : pl = .xmm xmm0 := by
  cases h <;> cases pl <;> simp_all [Pool.park, Needs, Reads]

theorem not_occupies_of_spares_park (hspares : Spares model (Pool.park h) m pl)
    (hsteps : steps model (Pool.park h) m = .ok m') : ¬ h.Occupies m' pl := by
  cases h with
  | register n =>
      cases pl with
      | xmm r => exact hspares.1
      | byte a => exact id
  | spill =>
      cases pl with
      | xmm r => exact id
      | byte a =>
          have hrsp : m'.rsp = m.rsp - 8 := by
            rw [← Except.ok.inj hsteps]
            rfl
          have hpush : ¬ InWord (m.rsp - 8) a := (hspares.2 { m with rax := m.getXmm xmm0 } rfl).1
          rw [Handle.Occupies, hrsp]
          exact hpush

theorem needs_combineCode {op : BinOp} {leftFirst : Bool}
    (hneeds : Needs model (Emitter.combineCode op leftFirst h) m pl) :
    pl = .xmm xmm0 ∨ h.Occupies m pl := by
  have hzero : Xmm.ofNat 0 = xmm0 := rfl
  have hone : Xmm.ofNat 1 = xmm1 := rfl
  cases pl with
  | xmm r =>
      cases h <;> cases leftFirst <;>
        simp [Emitter.combineCode, Pool.restore, Needs, Reads, Writes, step, Handle.Occupies, hzero,
          hone] at hneeds ⊢ <;> tauto
  | byte a =>
      cases h <;> cases leftFirst <;>
        simp [Emitter.combineCode, Pool.restore, Needs, Reads, Writes, step] at hneeds <;>
        exact .inr hneeds

theorem needs_combineCode_append {op : BinOp} {leftFirst : Bool} {k : List Instr} {rsp : UInt64}
    (hneeds : Needs model (Emitter.combineCode op leftFirst h ++ k) m pl)
    (hk : ∀ m', steps model (Emitter.combineCode op leftFirst h) m = .ok m' →
      Needs model k m' pl → pl.Survives rsp) : h.Occupies m pl ∨ pl.Survives rsp := by
  rcases needs_append hneeds with hneeds | ⟨-, m', hsteps, hneeds⟩
  · rcases needs_combineCode hneeds with rfl | hback
    · exact .inr rfl
    · exact .inl hback
  · exact .inr (hk m' hsteps hneeds)

theorem eq_xmm0_of_needs_callCode {address : UInt64} {n : Nat}
    (hneeds : Needs model (Emitter.callCode address n) m pl) : pl = .xmm xmm0 := by
  rw [Emitter.callCode] at hneeds
  cases pl with
  | xmm r =>
      split at hneeds <;> simp [Needs, Reads, Writes, step] at hneeds <;> rw [hneeds]
  | byte a => split at hneeds <;> simp [Needs, Reads] at hneeds

theorem needs_call {r : Reg} {ahead : List Instr} (hneeds : Needs model (.call r :: ahead) m pl) :
    pl = .xmm xmm0 ∨ ∃ m', m.step model (.call r) = .ok m' ∧ Needs model ahead m' pl := by
  rcases hneeds with hread | ⟨-, m', hstep, hneeds⟩
  · cases pl with
    | xmm r => exact .inl (congrArg Place.xmm hread)
    | byte a => exact hread.elim
  · exact .inr ⟨m', hstep, hneeds⟩

theorem along_callCode_callsSafely {address : UInt64} {n : Nat} (hm : m.AtDepth base x y n)
    (hroom : 8 * (n + 3) ≤ base.toNat) {k : List Instr}
    (hk : ∀ m' pl, steps model (Emitter.callCode address n) m = .ok m' → Needs model k m' pl →
      pl.Survives (slot base (n + 2))) :
    Along model (fun m i ahead ↦ CallsSafely model m i (ahead ++ k))
      (Emitter.callCode address n) m := by
  rw [Emitter.callCode] at hk ⊢
  split at hk
  · next hodd =>
      rw [if_pos hodd]
      refine ⟨callsSafely_of_ne_call (by simp), fun m₁ hstep₁ ↦ ⟨callsSafely_of_ne_call (by simp),
        fun m₂ hstep₂ ↦ ⟨?_, fun m₃ _ ↦ ⟨callsSafely_of_ne_call (by simp), fun _ _ ↦ trivial⟩⟩⟩⟩
      intro r _ pl hneeds
      have hrsp : m₂.rsp = slot base (n + 3) := by
        rw [← slot_sub_eight, ← hm.rsp]
        cases hstep₁
        cases hstep₂
        rfl
      rcases needs_call hneeds with rfl | ⟨m₃, hstep₃, hread | ⟨-, m₄, hstep₄, hneeds⟩⟩
      · rfl
      · cases pl <;> exact hread.elim
      · have hsteps : steps model
            [.subImm .rsp 8, .movImm .rax address, .call .rax, .addImm .rsp 8] m = .ok m₄ := by
          simp only [steps_cons, hstep₁, hstep₂, hstep₃, hstep₄, Except.bind, steps_nil]
        rw [hrsp]
        exact (hk m₄ pl hsteps hneeds).mono (slot_le_slot (by omega) hroom)
  · next heven =>
      rw [if_neg heven]
      refine ⟨callsSafely_of_ne_call (by simp), fun m₁ hstep₁ ↦ ⟨?_, fun _ _ ↦ trivial⟩⟩
      intro r _ pl hneeds
      have hrsp : m₁.rsp = slot base (n + 2) := by
        rw [← hm.rsp]
        cases hstep₁
        rfl
      rcases needs_call hneeds with rfl | ⟨m₂, hstep₂, hneeds⟩
      · rfl
      · have hsteps : steps model [.movImm .rax address, .call .rax] m = .ok m₂ := by
          simp only [steps_cons, hstep₁, hstep₂, Except.bind, steps_nil]
        rw [hrsp]
        exact hk m₂ pl hsteps hneeds

theorem le_of_inWord_effective (hm : m.AtDepth base x y p.pendingSpills)
    (hroom : 16 ≤ base.toNat) {v : Var} {a : UInt64} (ha : InWord (m.effective .rbp v.slot) a) :
    slot base 2 ≤ a := by
  have haddr : m.effective .rbp v.slot = base + v.slot.toInt64.toUInt64 := by
    rw [← hm.rbp]
    rfl
  rw [haddr, add_slot] at ha
  rw [UInt64.le_iff_toNat_le, toNat_slot (by omega)]
  cases v with
  | x =>
      have := (inWord_slot_iff (k := 0) (by omega)).1 ha
      omega
  | y =>
      have := (inWord_slot_iff (k := 1) (by omega)).1 ha
      omega

namespace Plan

theorem ne_of_spares_code {P : Plan} (hspares : Spares model (P.code t p) m pl) :
    pl ≠ .xmm xmm0 := by
  rintro rfl
  induction P generalizing p m with
  | const v => exact (hspares.2 { m with rax := v.bits } rfl).1 rfl
  | var v => exact hspares.1 rfl
  | bin op leftFirst force P Q ihP ihQ => exact ihP hspares.left
  | call name P ih => exact ih hspares.left

/-- The instructions of a plan need nothing but the inputs. -/
theorem needs_code (hmodel : model.Follows t B) {P : Plan} (hfits : P.Fits t base p)
    (hm : m.AtDepth base x y p.pendingSpills) (hneeds : Needs model (P.code t p) m pl) :
    ∃ a, pl = .byte a ∧ slot base 2 ≤ a := by
  have hroom := hfits.room
  induction P generalizing p m with
  | const v => cases pl <;> simp [code, Emitter.loadConst, Needs, Reads] at hneeds
  | var v =>
      cases pl with
      | xmm r => simp [code, Emitter.loadVar, Needs, Reads] at hneeds
      | byte a =>
          simp only [code, Emitter.loadVar, Needs, Reads, and_false, exists_false,
            or_false] at hneeds
          exact ⟨a, rfl, le_of_inWord_effective hm (by omega) hneeds⟩
  | bin op leftFirst force P Q ihP ihQ =>
      rw [height_tree_bin] at hroom
      rcases needs_append hneeds with hneeds | ⟨hspares₁, m₁, hsteps₁, hneeds⟩
      · exact ihP hfits.first hm hneeds hfits.first.room
      have hm₁ := atDepth_of_steps hmodel hfits.first hm hsteps₁
      rcases needs_append hneeds with hneeds | ⟨hspares₂, m₂, hsteps₂, hneeds⟩
      · exact absurd (eq_xmm0_of_needs_park hneeds) (ne_of_spares_code hspares₁)
      have hm₂ := atDepth_of_steps_park hm₁ (by omega) hsteps₂
      rcases needs_append hneeds with hneeds | ⟨hspares₃, m₃, hsteps₃, hneeds⟩
      · exact ihQ hfits.second hm₂ hneeds hfits.second.room
      have hm₃ := atDepth_of_steps hmodel hfits.second hm₂ hsteps₃
      -- What the operation brings back is what was parked.
      rcases needs_combineCode hneeds with hxmm | hback
      · exact absurd hxmm (ne_of_spares_code hspares₁)
      · have hrsp : m₂.rsp = m₃.rsp := hm₂.rsp.trans hm₃.rsp.symm
        exact absurd (hback.of_rsp_eq hrsp) (not_occupies_of_spares_park hspares₂ hsteps₂)
  | call name P ih =>
      rcases needs_append hneeds with hneeds | ⟨hspares, m₁, hsteps, hneeds⟩
      · exact ih hfits.arg hm hneeds hfits.arg.room
      · exact absurd (eq_xmm0_of_needs_callCode hneeds) (ne_of_spares_code hspares)

/-- What is needed behind the first operand survives a call in it: its value will be parked before
the parked value is needed, and the second operand needs only the inputs. -/
theorem survives_behind_first (hmodel : model.Follows t B) {Q : Plan} {force : Bool}
    (hfits : Q.Fits t base (p.stash force).2) (hm : m.AtDepth base x y p.pendingSpills)
    (hroom : 8 * (p.pendingSpills + 3) ≤ base.toNat) {op : BinOp} {leftFirst : Bool}
    {k : List Instr}
    (hneeds : Needs model (Pool.park (p.stash force).1 ++ (Q.code t (p.stash force).2 ++
      (Emitter.combineCode op leftFirst (p.stash force).1 ++ k))) m pl)
    (hk : ∀ m', steps model (Pool.park (p.stash force).1 ++ (Q.code t (p.stash force).2 ++
      Emitter.combineCode op leftFirst (p.stash force).1)) m = .ok m' → Needs model k m' pl →
      pl.Survives (slot base (p.pendingSpills + 2))) :
    pl.Survives (slot base (p.pendingSpills + 2)) := by
  rcases needs_append hneeds with hneeds | ⟨hspares, m₁, hsteps₁, hneeds⟩
  · rw [eq_xmm0_of_needs_park hneeds]
    rfl
  have hm₁ := atDepth_of_steps_park hm hroom hsteps₁
  rcases needs_append hneeds with hneeds | ⟨-, m₂, hsteps₂, hneeds⟩
  · obtain ⟨a, rfl, ha⟩ := needs_code hmodel hfits hm₁ hneeds
    exact UInt64.le_trans (slot_le_slot (by omega) (by omega)) ha
  have hm₂ := atDepth_of_steps hmodel hfits hm₁ hsteps₂
  have hlast := needs_combineCode_append hneeds fun m₃ hsteps₃ ↦
    hk m₃ ((steps_append_of_ok hsteps₁).trans ((steps_append_of_ok hsteps₂).trans hsteps₃))
  rcases hlast with hback | hsurvives
  · have hrsp : m₁.rsp = m₂.rsp := hm₁.rsp.trans hm₂.rsp.symm
    exact absurd (hback.of_rsp_eq hrsp) (not_occupies_of_spares_park hspares hsteps₁)
  · exact hsurvives

/-- What is needed behind a second operand with a call survives the call: the first operand was
parked on the stack. -/
theorem survives_behind_second {force : Bool} (hforce : force = true)
    (hm : m.AtDepth base x y (p.stash force).2.pendingSpills)
    (hroom : 8 * (p.pendingSpills + 3) ≤ base.toNat) {op : BinOp} {leftFirst : Bool}
    {k : List Instr}
    (hneeds : Needs model (Emitter.combineCode op leftFirst (p.stash force).1 ++ k) m pl)
    (hk : ∀ m', steps model (Emitter.combineCode op leftFirst (p.stash force).1) m = .ok m' →
      Needs model k m' pl → pl.Survives (slot base (p.pendingSpills + 2))) :
    pl.Survives (slot base ((p.stash force).2.pendingSpills + 2)) := by
  have hbase := base.toNat_lt
  have hspills := p.pendingSpills_stash_le force
  have hmore := p.le_pendingSpills_stash force
  rcases needs_combineCode_append hneeds hk with hback | hsurvives
  · rw [← hm.rsp]
    refine hback.survives hforce ?_
    rw [hm.rsp, toNat_slot (by omega)]
    omega
  · exact hsurvives.mono (slot_le_slot (by omega) (by omega))

/-- Each call in a plan leaves what is needed behind it, if what is needed behind the plan is at or
above the stack pointer. -/
theorem along_code_callsSafely (hmodel : model.Follows t B) {P : Plan} (hfits : P.Fits t base p)
    (hm : m.AtDepth base x y p.pendingSpills) {k : List Instr}
    (hk : P.tree.hasCall = true → ∀ m' pl, steps model (P.code t p) m = .ok m' →
      Needs model k m' pl → pl.Survives (slot base (p.pendingSpills + 2))) :
    Along model (fun m i ahead ↦ CallsSafely model m i (ahead ++ k)) (P.code t p) m := by
  have hroom := hfits.room
  induction P generalizing p m k with
  | const v => exact along_of_no_call (by simp [code, Emitter.loadConst]) (· ++ k) m
  | var v => exact along_of_no_call (by simp [code, Emitter.loadVar]) (· ++ k) m
  | bin op leftFirst force P Q ihP ihQ =>
      rw [height_tree_bin] at hroom
      rw [hasCall_tree_bin] at hk
      refine Along.append ?_ fun m₁ hsteps₁ ↦ Along.append ?_ fun m₂ hsteps₂ ↦
        Along.append ?_ fun m₃ hsteps₃ ↦ ?_
      · have hrest := ihP hfits.first hm (k := Pool.park (p.stash force).1 ++
          (Q.code t (p.stash force).2 ++ (Emitter.combineCode op leftFirst (p.stash force).1 ++ k)))
          (fun hcall m₁ pl hsteps₁ hneeds ↦ ?_) hfits.first.room
        · simpa only [List.append_assoc] using hrest
        · have hm₁ := atDepth_of_steps hmodel hfits.first hm hsteps₁
          refine survives_behind_first hmodel hfits.second hm₁ (by omega) hneeds fun m₄ hsteps₄ ↦ ?_
          exact hk (by simp [hcall]) m₄ pl ((steps_append_of_ok hsteps₁).trans hsteps₄)
      · exact along_of_no_call (fun r ↦ straight_park _ (.call r)) _ m₁
      · have hm₁ := atDepth_of_steps hmodel hfits.first hm hsteps₁
        have hm₂ := atDepth_of_steps_park hm₁ (by omega) hsteps₂
        have hrest := ihQ hfits.second hm₂
          (k := Emitter.combineCode op leftFirst (p.stash force).1 ++ k)
          (fun hcall m₃ pl hsteps₃ hneeds ↦ ?_) hfits.second.room
        · simpa only [List.append_assoc] using hrest
        · have hm₃ := atDepth_of_steps hmodel hfits.second hm₂ hsteps₃
          refine survives_behind_second (hfits.safe.1 hcall) hm₃ (by omega) hneeds
            fun m₄ hsteps₄ ↦ ?_
          exact hk (by simp [hcall]) m₄ pl ((steps_append_of_ok hsteps₁).trans
            ((steps_append_of_ok hsteps₂).trans ((steps_append_of_ok hsteps₃).trans hsteps₄)))
      · exact along_of_no_call (fun r ↦ straight_combineCode _ _ _ (.call r)) (· ++ k) m₃
  | call name P ih =>
      have hroom : 8 * (p.pendingSpills + (P.tree.height + 1) + 2) ≤ base.toNat := hroom
      refine Along.append ?_ fun m₁ hsteps₁ ↦ ?_
      · have hrest : P.tree.hasCall = true → ∀ m₁ pl, steps model (P.code t p) m = .ok m₁ →
            Needs model (Emitter.callCode ((t.address? name).getD 0) p.pendingSpills ++ k) m₁ pl →
            pl.Survives (slot base (p.pendingSpills + 2)) := by
          intro _ m₁ pl hsteps₁ hneeds
          rcases needs_append hneeds with hneeds | ⟨-, m₂, hsteps₂, hneeds⟩
          · rw [eq_xmm0_of_needs_callCode hneeds]
            rfl
          · exact hk rfl m₂ pl ((steps_append_of_ok hsteps₁).trans hsteps₂) hneeds
        simpa only [List.append_assoc] using ih hfits.arg hm hrest hfits.arg.room
      · have hm₁ := atDepth_of_steps hmodel hfits.arg hm hsteps₁
        refine along_callCode_callsSafely hm₁ (by omega) fun m₂ pl hsteps₂ hneeds ↦ ?_
        exact hk rfl m₂ pl ((steps_append_of_ok hsteps₁).trans hsteps₂) hneeds

end Plan

end Formula.Code
