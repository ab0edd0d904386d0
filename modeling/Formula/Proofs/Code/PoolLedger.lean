import Formula.Proofs.Code.Pool

/-!
# The books of a pool

The operations of the pool are written here once more as work on a pool and on the instructions that
are out, one change after the other, so that an operation that fails leaves what it has changed by
then. It turns out to leave the pool alone (`Pool.Op.run_act`). A `Ledger` counts what a sequence of
operations does, failing ones included, and the counts that the pool keeps itself can be read off it
(`Pool.pool_keeps_books`): the highest register ever taken is the greatest number of registers
that were in use at once, because a register is taken only if all below it are in use.
-/

namespace Formula.Code.Pool

open X86

/-- A pool and the instructions that are out. -/
structure Desk where
  pool : Pool
  code : List Instr

/-- Work that can fail. What it has changed by then stays changed. -/
abbrev Work := EStateM Fault Desk

namespace Work

def out (i : Instr) : Work Unit := modify fun d ↦ { d with code := d.code ++ [i] }

def change (f : Pool → Pool) : Work Unit := modify fun d ↦ { d with pool := f d.pool }

def acquire : Work Handle := do
  let p := (← get).pool
  match if p.enabled then p.free? else none with
  | some r =>
    change fun p ↦ { p with used := r.update p.used true }
    change fun p ↦ { p with stats.registersHit := p.stats.registersHit + 1 }
    change fun p ↦ { p with stats.maxReg := max p.stats.maxReg r }
    return .register r
  | none =>
    change countSpill
    return .spill

def release : Handle → Work Unit
  | .spill => return
  | .register n => do
    if h : n < 8 ∧ 2 ≤ n then
      if (← get).pool.isUsed ⟨n, h.1⟩ then change (·.giveBack ⟨n, h.1⟩)
      else throw (.doubleFree n)
    else throw (.notAllocatable n)

def stash (force : Bool) : Work Handle := do
  let h ← if force then (do change countSpill; return .spill) else acquire
  match h with
  | .register n => out (.movsd (Xmm.ofNat n) xmm0)
  | .spill =>
    out (.movqFromXmm .rax xmm0)
    out (.push .rax)
    change fun p ↦ { p with pendingSpills := p.pendingSpills + 1 }
  return h

def bringBack (dest : Nat) : Handle → Work Unit
  | .register n => do
    out (.movsd (Xmm.ofNat dest) (Xmm.ofNat n))
    release (.register n)
  | .spill => do
    if (← get).pool.pendingSpills = 0 then throw .emptySpillStack
    out (.pop .rax)
    out (.movqToXmm (Xmm.ofNat dest) .rax)
    change fun p ↦ { p with pendingSpills := p.pendingSpills - 1 }

def unstash (h : Handle) (dest : Nat) : Work Unit :=
  if dest ≠ 0 ∧ dest ≠ 1 then throw (.badTarget dest) else bringBack dest h

end Work

/-- What a desk shows after work that gave these instructions and this outcome: a failure leaves
the pool as it was. -/
def Desk.shown {α : Type} (d : Desk) :
    List Instr × Except Fault (α × Pool) → EStateM.Result Fault Desk α
  | (is, .ok (a, p)) => .ok a ⟨p, d.code ++ is⟩
  | (is, .error f) => .error f ⟨d.pool, d.code ++ is⟩

theorem Desk.pool_of_shown_eq_error {α : Type} {d d' : Desk} {f : Fault}
    {o : List Instr × Except Fault (α × Pool)} (h : d.shown o = .error f d') :
    d'.pool = d.pool := by
  obtain ⟨is, e | ⟨a, q⟩⟩ := o <;> cases h
  rfl

namespace Work

@[simp] theorem run_out (i : Instr) (d : Desk) :
    (out i).run d = .ok () ⟨d.pool, d.code ++ [i]⟩ := rfl

@[simp] theorem run_change (f : Pool → Pool) (d : Desk) :
    (change f).run d = .ok () ⟨f d.pool, d.code⟩ := rfl

theorem run_acquire (d : Desk) : Work.acquire.run d = d.shown ([], .ok d.pool.acquire) := by
  rw [Work.acquire, Pool.acquire]
  simp only [EStateM.run_bind, EStateM.run_get]
  cases if d.pool.enabled then d.pool.free? else none with
  | none => simp [Desk.shown]
  | some r => simp [Desk.shown, take]

theorem run_release (h : Handle) (d : Desk) :
    (Work.release h).run d = d.shown ([], (d.pool.release h).map ((), ·)) := by
  cases h with
  | spill => simp [Work.release, Pool.release, Desk.shown, Except.map]
  | register n =>
      rw [Work.release, Pool.release]
      by_cases hn : 2 ≤ n ∧ n < 8
      · simp only [dif_pos hn, dif_pos hn.symm, EStateM.run_bind, EStateM.run_get]
        cases d.pool.isUsed ⟨n, hn.2⟩ <;> simp [Desk.shown, Except.map, giveBack, Xmm.update]
      · have hn' : ¬ (n < 8 ∧ 2 ≤ n) := fun h ↦ hn h.symm
        simp [dif_neg hn, dif_neg hn', Desk.shown, Except.map]

theorem run_stash (force : Bool) (d : Desk) :
    (Work.stash force).run d = d.shown (park (d.pool.stash force).1, .ok (d.pool.stash force)) := by
  rw [Work.stash, Pool.stash]
  cases force with
  | true => simp [Desk.shown, park]
  | false =>
      simp only [Bool.false_eq_true, if_false, EStateM.run_bind, run_acquire, Desk.shown]
      cases d.pool.acquire.1 with
      | register n => simp [park]
      | spill => simp [park]

theorem run_unstash (h : Handle) (dest : Nat) (d : Desk) :
    (Work.unstash h dest).run d =
      d.shown ((d.pool.unstash h dest).1, (d.pool.unstash h dest).2.map ((), ·)) := by
  unfold Work.unstash Pool.unstash
  by_cases hdest : 1 < dest
  · have hne : dest ≠ 0 ∧ dest ≠ 1 := by omega
    simp [hdest, hne, Desk.shown, Except.map]
  · have hle : ¬ (dest ≠ 0 ∧ dest ≠ 1) := by omega
    rw [if_neg hdest, if_neg hle]
    cases h with
    | register n =>
        simp only [bringBack, EStateM.run_bind, run_out, run_release]
        cases d.pool.release (.register n) <;> simp [Desk.shown, Except.map]
    | spill =>
        simp only [bringBack, EStateM.run_bind, EStateM.run_get]
        cases hspills : d.pool.pendingSpills <;> simp [hspills, Desk.shown, Except.map]

end Work

/-- An operation of the pool. -/
inductive Op where
  | acquire
  | release (h : Handle)
  | stash (force : Bool)
  | unstash (h : Handle) (dest : Nat)

namespace Op

/-- The instructions that come out of an operation, and the handle and the pool unless it fails. -/
def outcome (p : Pool) : Op → List Instr × Except Fault (Option Handle × Pool)
  | acquire => ([], .ok (some p.acquire.1, p.acquire.2))
  | release h => ([], (p.release h).map (none, ·))
  | stash force => (park (p.stash force).1, .ok (some (p.stash force).1, (p.stash force).2))
  | unstash h dest => ((p.unstash h dest).1, (p.unstash h dest).2.map (none, ·))

def act : Op → Work (Option Handle)
  | acquire => some <$> Work.acquire
  | release h => (fun _ ↦ none) <$> Work.release h
  | stash force => some <$> Work.stash force
  | unstash h dest => (fun _ ↦ none) <$> Work.unstash h dest

theorem run_act (op : Op) (d : Desk) : op.act.run d = d.shown (op.outcome d.pool) := by
  cases op with
  | acquire =>
      rw [act, EStateM.run_map, Work.run_acquire]
      rfl
  | release h =>
      rw [act, EStateM.run_map, Work.run_release, outcome]
      cases d.pool.release h <;> rfl
  | stash force =>
      rw [act, EStateM.run_map, Work.run_stash]
      rfl
  | unstash h dest =>
      rw [act, EStateM.run_map, Work.run_unstash, outcome]
      cases (d.pool.unstash h dest).2 <;> rfl

/-- How many registers a successful operation gives back. -/
def frees : Op → Nat
  | release (.register _) | unstash (.register _) _ => 1
  | _ => 0

/-- How many values a successful operation parks on the stack. -/
def pushes : Op → Option Handle → Nat
  | stash _, some .spill => 1
  | _, _ => 0

/-- How many values a successful operation takes from the stack. -/
def pops : Op → Nat
  | unstash .spill _ => 1
  | _ => 0

end Op

/-- A desk and what was done there so far. -/
structure Ledger where
  desk : Desk
  freed : Nat
  pushed : Nat
  popped : Nat
  /-- The greatest number of registers in use at once. -/
  peak : Nat

namespace Ledger

def start (enabled : Bool) : Ledger := ⟨⟨new enabled, []⟩, 0, 0, 0, 0⟩

/-- Enters an operation. What follows one that fails starts from what that leaves. -/
def enter (l : Ledger) (op : Op) : Ledger :=
  match op.act.run l.desk with
  | .ok h d =>
    ⟨d, l.freed + op.frees, l.pushed + op.pushes h, l.popped + op.pops,
      max l.peak d.pool.occupied⟩
  | .error _ d => { l with desk := d, peak := max l.peak d.pool.occupied }

def ofOps (enabled : Bool) (ops : List Op) : Ledger := ops.foldl enter (start enabled)

end Ledger

/-- What an operation can do to a pool, with the registers it gives back and the values it pushes
and pops. -/
inductive Effect (p : Pool) : Pool → (freed pushed popped : Nat) → Prop
  | stay : Effect p p 0 0 0
  | take {r : Xmm} (enabled : p.enabled = true) (lowest : p.free? = some r) :
    Effect p (p.take r) 0 0 0
  | count : Effect p p.countSpill 0 0 0
  | push : Effect p p.spilled 0 1 0
  | giveBack {r : Xmm} (used : p.isUsed r = true) : Effect p (p.giveBack r) 1 0 0
  | pop {k : Nat} (pending : p.pendingSpills = k + 1) :
    Effect p { p with pendingSpills := k } 0 0 1

/-- Whatever comes of an operation is an effect. -/
theorem Op.effect_outcome (p : Pool) (op : Op) :
    (∃ is h q, op.outcome p = (is, .ok (h, q)) ∧ Effect p q op.frees (op.pushes h) op.pops) ∨
      ∃ is f, op.outcome p = (is, .error f) := by
  cases op with
  | acquire =>
      left
      rcases p.acquire_cases with ⟨r, henabled, hfree, hacquire⟩ | ⟨-, hacquire⟩
      · exact ⟨_, _, _, by rw [outcome, hacquire], .take henabled hfree⟩
      · exact ⟨_, _, _, by rw [outcome, hacquire], .count⟩
  | release h =>
      cases h with
      | spill => exact .inl ⟨_, _, _, rfl, .stay⟩
      | register n =>
          rcases p.release_register_cases n with ⟨r, -, -, hused, hok⟩ | ⟨-, f, herr⟩
          · exact .inl ⟨_, _, _, by rw [outcome, hok]; rfl, .giveBack hused⟩
          · exact .inr ⟨_, f, by rw [outcome, herr]; rfl⟩
  | stash force =>
      left
      cases force with
      | true => exact ⟨_, _, _, rfl, .push⟩
      | false =>
          rcases p.acquire_cases with ⟨r, henabled, hfree, hacquire⟩ | ⟨-, hacquire⟩
          · have hstash : p.stash false = (.register r, p.take r) := by simp [Pool.stash, hacquire]
            exact ⟨_, _, _, by rw [outcome, hstash], .take henabled hfree⟩
          · have hstash : p.stash false = (.spill, p.spilled) := by
              simp [Pool.stash, hacquire, spilled, countSpill]
            exact ⟨_, _, _, by rw [outcome, hstash], .push⟩
  | unstash h dest =>
      rw [outcome]
      rcases p.unstash_cases h dest with ⟨is, r, rfl, hused, hback⟩ |
        ⟨is, k, rfl, hspills, hback⟩ | ⟨is, f, hback⟩
      · exact .inl ⟨is, none, p.giveBack r, by rw [hback]; rfl, .giveBack hused⟩
      · exact .inl ⟨is, none, { p with pendingSpills := k }, by rw [hback]; rfl, .pop hspills⟩
      · exact .inr ⟨is, f, by rw [hback]; rfl⟩

namespace Ledger

/-- The books after an operation, in terms of its effect. -/
theorem exists_enter_eq (l : Ledger) (op : Op) :
    ∃ p code freed pushed popped, Effect l.desk.pool p freed pushed popped ∧
      l.enter op = ⟨⟨p, code⟩, l.freed + freed, l.pushed + pushed, l.popped + popped,
        max l.peak p.occupied⟩ := by
  unfold enter
  rw [op.run_act]
  rcases op.effect_outcome l.desk.pool with ⟨is, h, q, hout, heffect⟩ | ⟨is, f, hout⟩
  · rw [hout]
    exact ⟨_, _, _, _, _, heffect, rfl⟩
  · rw [hout]
    exact ⟨_, _, _, _, _, .stay, rfl⟩

end Ledger

/-- The counts that a pool keeps agree with the books. -/
structure Balanced (enabled : Bool) (p : Pool) (freed pushed popped peak : Nat) : Prop where
  enabled_eq : p.enabled = enabled
  off : enabled = false → p.occupied = 0
  bounds : ∀ r, p.isUsed r = true → 2 ≤ r.val ∧ r.val ≤ p.stats.maxReg
  hits : p.stats.registersHit = p.occupied + freed
  spills : pushed = p.pendingSpills + popped
  occupied_le_peak : p.occupied ≤ peak
  unused : p.stats.registersHit = 0 → p.stats.maxReg = 0 ∧ peak = 0
  highest : p.stats.registersHit ≠ 0 → p.stats.maxReg = 1 + peak

namespace Balanced

variable {enabled : Bool} {p q : Pool} {freed pushed popped peak : Nat}

theorem new (enabled : Bool) : Balanced enabled (new enabled) 0 0 0 0 where
  enabled_eq := rfl
  off _ := occupied_new enabled
  bounds r hr := by simp [isUsed, Pool.new, Vector.get_eq_getElem] at hr
  hits := by
    rw [occupied_new]
    rfl
  spills := rfl
  occupied_le_peak := (occupied_new enabled).le
  unused _ := ⟨rfl, rfl⟩
  highest h := absurd rfl h

/-- The register taken is the lowest free one, so all below it are in use; and all that are in use
have been taken. So the highest register and the greatest number in use go up together. -/
theorem take (h : Balanced enabled p freed pushed popped peak) {r : Xmm}
    (henabled : p.enabled = true) (hfree : p.free? = some r) :
    Balanced enabled (p.take r) freed pushed popped (max peak (p.take r).occupied) := by
  obtain ⟨hlow, hunused, hbelow⟩ := free?_eq_some_iff.1 hfree
  have hoccupied : (p.take r).occupied = p.occupied + 1 := occupied_take hunused
  have hmax : (p.take r).stats.maxReg = max p.stats.maxReg r := rfl
  have hhits : (p.take r).stats.registersHit = p.stats.registersHit + 1 := rfl
  have hbounds : ∀ s, (p.take r).isUsed s = true →
      2 ≤ s.val ∧ s.val ≤ (p.take r).stats.maxReg := by
    intro s hs
    rw [isUsed_take, Bool.or_eq_true, decide_eq_true_iff] at hs
    rcases hs with rfl | hs
    · exact ⟨hlow, by omega⟩
    · obtain ⟨h2, hle⟩ := h.bounds s hs
      exact ⟨h2, by omega⟩
  have hhigh := le_occupied hbelow
  have hmany := occupied_le hbounds
  have hold := h.hits
  have hhighest : (p.take r).stats.maxReg = 1 + max peak (p.take r).occupied := by
    by_cases hnone : p.stats.registersHit = 0
    · obtain ⟨hzero, hpeak⟩ := h.unused hnone
      omega
    · have := h.highest hnone
      omega
  refine ⟨h.enabled_eq, fun hoff ↦ ?_, hbounds, by omega, h.spills, le_max_right _ _,
    fun hnone ↦ ?_, fun _ ↦ hhighest⟩
  · rw [h.enabled_eq, hoff] at henabled
    cases henabled
  · omega

theorem giveBack (h : Balanced enabled p freed pushed popped peak) {r : Xmm}
    (hused : p.isUsed r = true) :
    Balanced enabled (p.giveBack r) (freed + 1) pushed popped
      (max peak (p.giveBack r).occupied) := by
  have hoccupied := occupied_giveBack hused
  have hpeak : max peak (p.giveBack r).occupied = peak := by
    have := h.occupied_le_peak
    omega
  rw [hpeak]
  refine ⟨h.enabled_eq, fun hoff ↦ ?_, fun s hs ↦ ?_, ?_, h.spills, ?_, h.unused, h.highest⟩
  · have := h.off hoff
    omega
  · rw [isUsed_giveBack, Bool.and_eq_true] at hs
    exact h.bounds s hs.2
  · have hhits : (p.giveBack r).stats.registersHit = p.stats.registersHit := rfl
    have := h.hits
    omega
  · have := h.occupied_le_peak
    omega

/-- What leaves the registers alone keeps the books balanced if it enters the spills. -/
theorem of_used_eq (h : Balanced enabled p freed pushed popped peak)
    (henabled : q.enabled = p.enabled) (hused : q.used = p.used)
    (hhits : q.stats.registersHit = p.stats.registersHit) (hmax : q.stats.maxReg = p.stats.maxReg)
    {pushed' popped' : Nat} (hspills : pushed' = q.pendingSpills + popped') :
    Balanced enabled q freed pushed' popped' (max peak q.occupied) := by
  have hoccupied : q.occupied = p.occupied := congrArg (·.toList.count true) hused
  have hpeak : max peak q.occupied = peak := hoccupied ▸ max_eq_left h.occupied_le_peak
  have hisUsed : ∀ r, q.isUsed r = p.isUsed r := fun r ↦ congrArg (·.get r) hused
  rw [hpeak]
  exact ⟨henabled.trans h.enabled_eq, fun hoff ↦ hoccupied.trans (h.off hoff),
    fun r hr ↦ hmax ▸ h.bounds r ((hisUsed r).symm.trans hr),
    hhits.trans (hoccupied ▸ h.hits), hspills, hoccupied ▸ h.occupied_le_peak,
    fun hnone ↦ hmax ▸ h.unused (hhits ▸ hnone), fun hsome ↦ hmax ▸ h.highest (hhits ▸ hsome)⟩

theorem effect (h : Balanced enabled p freed pushed popped peak) {freed' pushed' popped' : Nat}
    (heffect : Effect p q freed' pushed' popped') :
    Balanced enabled q (freed + freed') (pushed + pushed') (popped + popped')
      (max peak q.occupied) := by
  have hspills := h.spills
  cases heffect with
  | stay => exact h.of_used_eq rfl rfl rfl rfl h.spills
  | take henabled hfree => exact h.take henabled hfree
  | count => exact h.of_used_eq (q := p.countSpill) rfl rfl rfl rfl h.spills
  | push =>
      have hpending : p.spilled.pendingSpills = p.pendingSpills + 1 := rfl
      exact h.of_used_eq (q := p.spilled) rfl rfl rfl rfl (by omega)
  | giveBack hused => exact h.giveBack hused
  | @pop k hpending =>
      exact h.of_used_eq (q := { p with pendingSpills := k }) rfl rfl rfl rfl (by simp only; omega)

end Balanced

namespace Ledger

def Balances (l : Ledger) (enabled : Bool) : Prop :=
  Balanced enabled l.desk.pool l.freed l.pushed l.popped l.peak

theorem Balances.enter {l : Ledger} {enabled : Bool} (h : l.Balances enabled) (op : Op) :
    (l.enter op).Balances enabled := by
  obtain ⟨p, code, freed, pushed, popped, heffect, henter⟩ := l.exists_enter_eq op
  rw [henter]
  exact Balanced.effect h heffect

theorem balances_ofOps (enabled : Bool) (ops : List Op) : (ofOps enabled ops).Balances enabled := by
  have hrun : ∀ (ops : List Op) (l : Ledger), l.Balances enabled →
      (ops.foldl Ledger.enter l).Balances enabled := by
    intro ops
    induction ops with
    | nil => exact fun l h ↦ h
    | cons op ops ih => exact fun l h ↦ ih _ (h.enter op)
  exact hrun ops _ (.new enabled)

end Ledger

theorem release_eq_error_iff {p : Pool} (hlow : ∀ n < 2, ¬ p.Holds n) (n : Nat) :
    (∃ f, p.release (.register n) = .error f) ↔ ¬ p.Holds n := by
  rcases p.release_register_cases n with ⟨r, rfl, -, hused, hok⟩ | ⟨hnot, herr⟩
  · simp [hok, holds_val_iff, hused]
  · refine iff_of_true herr ?_
    rcases hnot with hn | hn
    · exact hlow n hn
    · exact hn

theorem unstash_eq_error_iff {p : Pool} (hlow : ∀ n < 2, ¬ p.Holds n) (h : Handle) (dest : Nat) :
    (∃ f, (p.unstash h dest).2 = .error f) ↔
      (dest ≠ 0 ∧ dest ≠ 1) ∨ match h with
        | .register n => ¬ p.Holds n
        | .spill => p.pendingSpills = 0 := by
  by_cases hdest : 1 < dest
  · have hne : dest ≠ 0 ∧ dest ≠ 1 := by omega
    simp [unstash, hdest, hne]
  · have hle : ¬ (dest ≠ 0 ∧ dest ≠ 1) := by omega
    rw [or_iff_right hle]
    cases h with
    | register n => simpa [unstash, hdest] using release_eq_error_iff hlow n
    | spill => cases hspills : p.pendingSpills <;> simp [unstash, hdest, hspills]

/-- After any sequence of operations, failing ones included: the working registers are not in use,
no more than six are, and none if the pool is switched off; the lowest free register is handed out
while there is one; the counts of the pool are those of the books; an operation fails exactly if it
is given something that the pool does not hold, and then leaves the pool as it was. -/
theorem pool_keeps_books (enabled : Bool) (ops : List Op) :
    let l := Ledger.ofOps enabled ops
    let p := l.desk.pool
    (¬ p.Holds 0 ∧ ¬ p.Holds 1 ∧ p.occupied ≤ 6 ∧ (enabled = false → p.occupied = 0)) ∧
      ((∀ n, p.acquire.1 = .register n ↔ enabled = true ∧ 2 ≤ n ∧ n < 8 ∧ ¬ p.Holds n ∧
          ∀ k, 2 ≤ k → k < n → p.Holds k) ∧
        (p.acquire.1 = .spill ↔ enabled = false ∨ ∀ k, 2 ≤ k → k < 8 → p.Holds k)) ∧
      p.stats.registersHit = p.occupied + l.freed ∧
      p.stats.maxReg = (if p.stats.registersHit = 0 then 0 else 1 + l.peak) ∧
      (l.popped ≤ l.pushed ∧ p.pendingSpills = l.pushed - l.popped) ∧
      (∀ n, (∃ f, p.release (.register n) = .error f) ↔ ¬ p.Holds n) ∧
      (∀ h dest, (∃ f, (p.unstash h dest).2 = .error f) ↔
        (dest ≠ 0 ∧ dest ≠ 1) ∨ match h with
          | .register n => ¬ p.Holds n
          | .spill => p.pendingSpills = 0) ∧
      (∀ op : Op, op.act.run l.desk = l.desk.shown (op.outcome p)) ∧
      ∀ (op : Op) f d, op.act.run l.desk = .error f d → d.pool = p := by
  intro l p
  have hbooks : Balanced enabled p l.freed l.pushed l.popped l.peak :=
    Ledger.balances_ofOps enabled ops
  have hspills := hbooks.spills
  have hbounds : ∀ r, p.isUsed r = true → 2 ≤ r.val ∧ r.val ≤ 7 := fun r hr ↦
    ⟨(hbooks.bounds r hr).1, Nat.lt_succ_iff.1 r.2⟩
  have hlow : ∀ n < 2, ¬ p.Holds n := by
    rintro n hn ⟨h8, hused⟩
    exact absurd (hbounds _ hused).1 (not_le.2 hn)
  have hacquire : ∀ n, p.acquire.1 = .register n ↔ p.enabled = true ∧ _ :=
    fun n ↦ acquire_eq_register_iff
  have hspill : p.acquire.1 = .spill ↔ p.enabled = false ∨ _ := acquire_eq_spill_iff
  rw [hbooks.enabled_eq] at hspill
  simp only [hbooks.enabled_eq] at hacquire
  refine ⟨⟨hlow 0 (by decide), hlow 1 (by decide), occupied_le hbounds, hbooks.off⟩,
    ⟨hacquire, hspill⟩, hbooks.hits, ?_, by omega, release_eq_error_iff hlow,
    unstash_eq_error_iff hlow, fun op ↦ op.run_act l.desk, fun op f d hrun ↦ ?_⟩
  · split
    · next hnone => exact (hbooks.unused hnone).1
    · next hsome => exact hbooks.highest hsome
  · exact Desk.pool_of_shown_eq_error ((op.run_act l.desk).symm.trans hrun)

end Formula.Code.Pool
