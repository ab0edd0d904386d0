import Formula.Proofs.Code.Simulation
import Formula.Proofs.X86.Liveness

/-!
# How deep the stack is

Along a routine the machine is `AtDepth`: the parked values that are on the stack are the words
under the inputs, so the depth tells where the stack pointer is. The instructions that touch the
stack suit its depth (`Machine.Suits`): a pop takes a parked value, and at a call of a function of
the table the depth is even.
-/

namespace Formula

open X86 Machine

namespace X86

/-- An instruction that leaves the stack and the frame pointer alone. -/
def Instr.Plain : Instr → Prop
  | .movImm dst _ => dst = .rax
  | .movqFromXmm dst _ => dst = .rax
  | .movqToXmm .. | .movsd .. | .movsdLoad .. | .arith .. => True
  | _ => False

namespace Machine

/-- The instruction can come next when `n` words are below the inputs. -/
def Suits (t : FunctionTable) (base : UInt64) (n : Nat) (m : Machine) : Instr → Prop
  | .pop _ => 0 < n
  | .push _ => 8 * (n + 3) ≤ base.toNat
  | .call r => r = .rax ∧ n % 2 = 0 ∧ ∃ name f, t.get? name = some f ∧ m.rax = f.address
  | .movsdStore .. | .ret => False
  | _ => True

/-- The inputs are in place, and the instruction that comes next suits the depth of the stack. -/
structure Sits (t : FunctionTable) (base x y : UInt64) (m : Machine) (i : Instr) (n : Nat) :
    Prop where
  depth : m.AtDepth base x y n
  room : 8 * (n + 2) ≤ base.toNat
  suits : m.Suits t base n i

def InFrame (t : FunctionTable) (base x y : UInt64) (m : Machine) (i : Instr) (_ : List Instr) :
    Prop :=
  ∃ n, m.Sits t base x y i n

variable {t : FunctionTable} {model : CallModel} {base x y : UInt64} {n : Nat} {m m' : Machine}

theorem AtDepth.step_plain (hm : m.AtDepth base x y n) {i : Instr} (hi : i.Plain)
    (hstep : m.step model i = .ok m') : m'.AtDepth base x y n := by
  obtain ⟨hrbp, hrsp, hx, hy⟩ := hm
  cases i with
  | movImm dst imm =>
      cases hi
      cases hstep
      exact ⟨hrbp, hrsp, hx, hy⟩
  | movqFromXmm dst src =>
      cases hi
      cases hstep
      exact ⟨hrbp, hrsp, hx, hy⟩
  | movqToXmm dst src | movsd dst src | movsdLoad dst b disp | arith op dst src =>
      cases hstep
      exact ⟨hrbp, hrsp, hx, hy⟩
  | _ => exact hi.elim

theorem AtDepth.step_pop (hm : m.AtDepth base x y (n + 1))
    (hstep : m.step model (.pop .rax) = .ok m') : m'.AtDepth base x y n := by
  have hm' : m' = ⟨m.memory.readWord m.rsp, m.rsp + 8, m.rbp, m.xmm, m.memory, m.calls⟩ :=
    (Except.ok.inj hstep).symm
  have hrsp : m.rsp = slot base (n + 2 + 1) := hm.rsp
  subst hm'
  constructor <;> simp only
  · exact hm.rbp
  · rw [hrsp, slot_add_eight]
  · exact hm.xWord
  · exact hm.yWord

theorem suits_of_plain {i : Instr} (hi : i.Plain) : m.Suits t base n i := by
  cases i <;> trivial

theorem along_plain {is : List Instr} (his : ∀ i ∈ is, i.Plain) (hm : m.AtDepth base x y n)
    (hroom : 8 * (n + 2) ≤ base.toNat) :
    Along model (InFrame t base x y) is m := by
  induction is generalizing m with
  | nil => trivial
  | cons i is ih =>
      have hi := his i List.mem_cons_self
      refine ⟨⟨n, hm, hroom, suits_of_plain hi⟩, fun m' hstep ↦ ?_⟩
      exact ih (fun j hj ↦ his j (List.mem_cons_of_mem i hj)) (hm.step_plain hi hstep)

end Machine

end X86

namespace Code

variable {model : CallModel} {t : FunctionTable} {B : Behaviour} {p : Pool} {m : Machine}
  {base x y : UInt64}

theorem along_park (force : Bool) (hm : m.AtDepth base x y p.pendingSpills)
    (hroom : 8 * (p.pendingSpills + 3) ≤ base.toNat) :
    Along model (InFrame t base x y) (Pool.park (p.stash force).1) m := by
  rcases p.stash_cases force with hs | ⟨r, -, -, -, hs⟩
  · have hplain : (Instr.movqFromXmm .rax xmm0).Plain := rfl
    rw [hs]
    refine ⟨⟨_, hm, by omega, trivial⟩, fun m' hstep ↦ ⟨?_, fun _ _ ↦ trivial⟩⟩
    exact ⟨_, hm.step_plain hplain hstep, by omega, hroom⟩
  · rw [hs]
    exact along_plain (by simp [Pool.park, Instr.Plain]) hm (by omega)

theorem along_combineCode {force : Bool} (op : BinOp) (leftFirst : Bool)
    (hm : m.AtDepth base x y (p.stash force).2.pendingSpills)
    (hroom : 8 * (p.pendingSpills + 3) ≤ base.toNat) :
    Along model (InFrame t base x y) (Emitter.combineCode op leftFirst (p.stash force).1) m := by
  rcases p.stash_cases force with hs | ⟨r, -, -, -, hs⟩
  · rw [hs] at hm ⊢
    have hpop : ∀ (m₁ : Machine) (dest : Xmm), m₁.AtDepth base x y (p.pendingSpills + 1) →
        Along model (InFrame t base x y)
          [.pop .rax, .movqToXmm dest .rax, .arith op xmm0 xmm1] m₁ := by
      intro m₁ dest hm₁
      refine ⟨⟨p.pendingSpills + 1, hm₁, hroom, Nat.succ_pos _⟩, fun m₂ hstep ↦ ?_⟩
      exact along_plain (by simp [Instr.Plain]) (hm₁.step_pop hstep) (by omega)
    cases leftFirst with
    | true =>
        have hplain : (Instr.movsd xmm1 xmm0).Plain := trivial
        refine ⟨⟨p.pendingSpills + 1, hm, hroom, trivial⟩, fun m₁ hstep ↦ ?_⟩
        exact hpop m₁ _ (hm.step_plain hplain hstep)
    | false => exact hpop m _ hm
  · rw [hs] at hm ⊢
    have hm : m.AtDepth base x y p.pendingSpills := hm
    refine along_plain ?_ hm (by omega)
    cases leftFirst <;> simp [Emitter.combineCode, Pool.restore, Instr.Plain]

theorem returns_of_step_call (hmodel : model.Follows t B) {name : String} {f : Native}
    (hf : t.get? name = some f) {m' : Machine} (hrax : m.rax = f.address)
    (hstep : m.step model (.call .rax) = .ok m') : ∃ w, m.Returns w m' := by
  obtain ⟨m₁, w, hcall, -, hret⟩ := hmodel name f hf m
  simp only [step, Machine.get, callAt, hrax, hcall, Except.ok.injEq] at hstep
  subst hstep
  exact ⟨w, hret.xmm0, hret.rsp, hret.rbp, hret.above⟩

theorem along_callCode (hmodel : model.Follows t B) {name : String} {f : Native}
    (hf : t.get? name = some f) {n : Nat} (hm : m.AtDepth base x y n)
    (hroom : 8 * (n + 3) ≤ base.toNat) :
    Along model (InFrame t base x y) (Emitter.callCode f.address n) m := by
  have hplain : (Instr.movImm .rax f.address).Plain := rfl
  rw [Emitter.callCode]
  split
  · next hodd =>
      refine ⟨⟨n, hm, by omega, trivial⟩, fun m₁ hstep₁ ↦ ?_⟩
      have hm₁ : m₁.AtDepth base x y (n + 1) := by
        cases hstep₁
        exact ⟨hm.rbp, by rw [← slot_sub_eight, ← hm.rsp]; rfl, hm.xWord, hm.yWord⟩
      refine ⟨⟨n + 1, hm₁, by omega, trivial⟩, fun m₂ hstep₂ ↦ ?_⟩
      have hm₂ := hm₁.step_plain hplain hstep₂
      have hrax : m₂.rax = f.address := by
        cases hstep₂
        rfl
      refine ⟨⟨n + 1, hm₂, by omega, rfl, by omega, name, f, hf, hrax⟩, fun m₃ hstep₃ ↦ ?_⟩
      obtain ⟨w, hret⟩ := returns_of_step_call hmodel hf hrax hstep₃
      have hm₃ := hm₂.of_sameAbove (by omega) hret.above hret.rbp (hret.rsp.trans hm₂.rsp)
      exact ⟨⟨n + 1, hm₃, by omega, trivial⟩, fun _ _ ↦ trivial⟩
  · next heven =>
      refine ⟨⟨n, hm, by omega, trivial⟩, fun m₁ hstep₁ ↦ ?_⟩
      have hrax : m₁.rax = f.address := by
        cases hstep₁
        rfl
      have hm₁ := hm.step_plain hplain hstep₁
      exact ⟨⟨n, hm₁, by omega, rfl, by omega, name, f, hf, hrax⟩, fun _ _ ↦ trivial⟩

theorem atDepth_of_steps_park {force : Bool} {m' : Machine}
    (hm : m.AtDepth base x y p.pendingSpills) (hroom : 8 * (p.pendingSpills + 3) ≤ base.toNat)
    (hsteps : steps model (Pool.park (p.stash force).1) m = .ok m') :
    m'.AtDepth base x y (p.stash force).2.pendingSpills := by
  obtain ⟨m₁, hsteps₁, hm₁, -⟩ := exists_steps_park model force hm hroom
  obtain rfl : m₁ = m' := Except.ok.inj (hsteps₁.symm.trans hsteps)
  exact hm₁

namespace Plan

theorem atDepth_of_steps (hmodel : model.Follows t B) {P : Plan} (hfits : P.Fits t base p)
    (hm : m.AtDepth base x y p.pendingSpills) {m' : Machine}
    (hsteps : steps model (P.code t p) m = .ok m') : m'.AtDepth base x y p.pendingSpills := by
  obtain ⟨m₁, hsteps₁, hkeep, -⟩ := exists_steps_code hmodel hfits hm
  obtain rfl : m₁ = m' := Except.ok.inj (hsteps₁.symm.trans hsteps)
  have hroom := hfits.room
  exact hm.of_keeps (by omega) hkeep

/-- The machine stays in its frame along the instructions of a plan. -/
theorem along_code_inFrame (hmodel : model.Follows t B) {P : Plan} (hfits : P.Fits t base p)
    (hm : m.AtDepth base x y p.pendingSpills) :
    Along model (InFrame t base x y) (P.code t p) m := by
  have hroom := hfits.room
  induction P generalizing p m with
  | const v => exact along_plain (by simp [code, Emitter.loadConst, Instr.Plain]) hm (by omega)
  | var v => exact along_plain (by simp [code, Emitter.loadVar, Instr.Plain]) hm (by omega)
  | bin op leftFirst force P Q ihP ihQ =>
      rw [height_tree_bin] at hroom
      refine (ihP hfits.first hm hfits.first.room).append fun m₁ hsteps₁ ↦ ?_
      have hm₁ := atDepth_of_steps hmodel hfits.first hm hsteps₁
      refine (along_park force hm₁ (by omega)).append fun m₂ hsteps₂ ↦ ?_
      have hm₂ := atDepth_of_steps_park hm₁ (by omega) hsteps₂
      refine (ihQ hfits.second hm₂ hfits.second.room).append fun m₃ hsteps₃ ↦ ?_
      have hm₃ := atDepth_of_steps hmodel hfits.second hm₂ hsteps₃
      exact along_combineCode op leftFirst hm₃ (by omega)
  | call name P ih =>
      have hroom : 8 * (p.pendingSpills + (P.tree.height + 1) + 2) ≤ base.toNat := hroom
      obtain ⟨f, hf⟩ := (t.contains_eq_true_iff name).1 hfits.known.1
      have haddr := FunctionTable.address?_of_get? hf
      rw [code, haddr]
      refine (ih hfits.arg hm hfits.arg.room).append fun m₁ hsteps₁ ↦ ?_
      have hm₁ := atDepth_of_steps hmodel hfits.arg hm hsteps₁
      exact along_callCode hmodel hf hm₁ (by omega)

end Plan

end Code

end Formula
