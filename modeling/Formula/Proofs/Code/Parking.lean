import Formula.Proofs.Code.Frame
import Formula.Proofs.X86.Liveness

/-!
# Parked values come back

Values are parked and brought back, the last one first, and other code runs in between. `Bench`
emits what the pool gives for a sequence of such actions. `parkedWords` reads the parked values off
a machine: a register handle by its number, a spill by its place from the top of the stack. Seen
like this, parking puts a word on top of the list, bringing back takes the top word off, and nothing
else changes the list (`Bench.Sound.exists_act`). So each value comes back as it was, whatever is
parked around it (`parked_values_come_back`).
-/

namespace Formula.Code

open X86 Machine

variable {model : CallModel}

/-- Code that runs to its end on every machine and keeps the stack pointer, the memory from there up
and some registers. -/
structure Interlude (model : CallModel) (kept : List Xmm) where
  code : List Instr
  runs : ∀ m, ∃ m', steps model code m = .ok m' ∧ m'.rsp = m.rsp ∧ m.SameAbove m' ∧
    ∀ r ∈ kept, m'.getXmm r = m.getXmm r

def loads (ws : List (Xmm × UInt64)) (a : UInt64) : List Instr :=
  ws.flatMap (fun w ↦ [.movImm .rax w.2, .movqToXmm w.1 .rax]) ++ [.movImm .rax a]

theorem exists_steps_loads (model : CallModel) (ws : List (Xmm × UInt64)) (a : UInt64)
    (m : Machine) :
    ∃ m', steps model (loads ws a) m = .ok m' ∧ m'.rsp = m.rsp ∧ m'.memory = m.memory ∧
      ∀ r, (∀ w ∈ ws, w.1 ≠ r) → m'.getXmm r = m.getXmm r := by
  induction ws generalizing m with
  | nil => exact ⟨_, rfl, rfl, rfl, fun _ _ ↦ rfl⟩
  | cons w ws ih =>
      obtain ⟨m', hsteps, hrsp, hmem, hxmm⟩ := ih (({ m with rax := w.2 } : Machine).setXmm w.1 w.2)
      refine ⟨m', hsteps, hrsp, hmem, fun r hr ↦ ?_⟩
      rw [hxmm r fun w' hw' ↦ hr w' (List.mem_cons_of_mem _ hw'), getXmm_setXmm,
        if_neg (hr w List.mem_cons_self)]
      rfl

/-- Any words in `rax` and in registers that need not be kept. -/
def Interlude.load (ws : List (Xmm × UInt64)) (a : UInt64) {kept : List Xmm}
    (h : ∀ w ∈ ws, w.1 ∉ kept) : Interlude model kept where
  code := loads ws a
  runs m := by
    obtain ⟨m', hsteps, hrsp, hmem, hxmm⟩ := exists_steps_loads model ws a m
    refine ⟨m', hsteps, hrsp, fun c _ ↦ by rw [hmem], fun r hr ↦ hxmm r ?_⟩
    rintro w hw rfl
    exact h w hw hr

inductive Action (model : CallModel) where
  | stash (force : Bool)
  /-- Brings the value back that was parked last. -/
  | unstash (dest : Fin 2)
  /-- Leaves the registers of the pool alone. -/
  | work (c : Interlude model Pool.registers)
  /-- May change all registers. It is left out while a register handle is out. -/
  | overwrite (c : Interlude model [])

/-- How many more values are parked afterwards. -/
def Action.gain : Action model → Int
  | stash _ => 1
  | unstash _ => -1
  | work _ | overwrite _ => 0

def gain (acts : List (Action model)) : Int := (acts.map Action.gain).sum

/-- No more is brought back than has been parked, and at most `d` values are parked at once. -/
def Within (d : Nat) (acts : List (Action model)) : Prop :=
  ∀ before, before <+: acts → 0 ≤ gain before ∧ gain before ≤ d

instance (d : Nat) (acts : List (Action model)) : Decidable (Within d acts) :=
  decidable_of_iff (∀ before ∈ acts.inits, 0 ≤ gain before ∧ gain before ≤ d)
    (forall_congr' fun before ↦ imp_congr_left (List.mem_inits before acts))

/-- Everything that is parked is brought back. -/
structure Nested (d : Nat) (acts : List (Action model)) : Prop where
  within : Within d acts
  gain_eq : gain acts = 0

theorem gain_append (acts acts' : List (Action model)) :
    gain (acts ++ acts') = gain acts + gain acts' := by
  simp [gain]

theorem gain_cons (a : Action model) (acts : List (Action model)) :
    gain (a :: acts) = a.gain + gain acts := by
  simp [gain]

theorem gain_singleton (a : Action model) : gain [a] = a.gain := by
  simp [gain]

theorem Within.left {d : Nat} {acts acts' : List (Action model)} (h : Within d (acts ++ acts')) :
    Within d acts :=
  fun before hbefore ↦ h before (hbefore.trans (List.prefix_append _ _))

/-- The pool, the handles that are out, the last one first, and the code so far. -/
structure Bench where
  pool : Pool
  parked : List Handle
  code : List Instr

namespace Bench

def emit (b : Bench) (is : List Instr) : Bench := { b with code := b.code ++ is }

def act (b : Bench) : Action model → Option Bench
  | .stash force =>
    let (h, p) := b.pool.stash force
    some ⟨p, h :: b.parked, b.code ++ Pool.park h⟩
  | .unstash dest =>
    match b.parked with
    | [] => none
    | h :: parked =>
      match b.pool.unstash h dest with
      | (is, .ok p) => some ⟨p, parked, b.code ++ is⟩
      | (_, .error _) => none
  | .work c => some (b.emit c.code)
  | .overwrite c => some (if ∀ h ∈ b.parked, h = .spill then b.emit c.code else b)

def run (b : Bench) (acts : List (Action model)) : Option Bench := acts.foldlM act b

end Bench

/-- The words at the handles, spilled ones from the address `a` upwards. -/
def wordsFrom (m : Machine) : (a : Nat) → List Handle → List UInt64
  | _, [] => []
  | a, .register n :: hs => m.getXmm (Xmm.ofNat n) :: wordsFrom m a hs
  | a, .spill :: hs => m.memory.readWord (UInt64.ofNat a) :: wordsFrom m (a + 8) hs

def parkedWords (m : Machine) (hs : List Handle) : List UInt64 := wordsFrom m m.rsp.toNat hs

theorem wordsFrom_congr {m m' : Machine} {a : Nat} {hs : List Handle}
    (hreg : ∀ n, .register n ∈ hs → m'.getXmm (Xmm.ofNat n) = m.getXmm (Xmm.ofNat n))
    (hmem : ∀ c : UInt64, a ≤ c.toNat → m'.memory.read c = m.memory.read c)
    (hend : a + 8 * hs.count .spill ≤ 2 ^ 64) : wordsFrom m' a hs = wordsFrom m a hs := by
  induction hs generalizing a with
  | nil => rfl
  | cons h hs ih =>
      have htail : ∀ n, .register n ∈ hs → m'.getXmm (Xmm.ofNat n) = m.getXmm (Xmm.ofNat n) :=
        fun n hn ↦ hreg n (List.mem_cons_of_mem h hn)
      cases h with
      | register n =>
          have hrest := ih htail hmem (by simpa using hend)
          rw [wordsFrom, wordsFrom, hrest, hreg n List.mem_cons_self]
      | spill =>
          rw [List.count_cons_self] at hend
          have hrest := ih htail (fun c hc ↦ hmem c (by omega)) (by omega : a + 8 + _ ≤ _)
          have haddr : (UInt64.ofNat a).toNat = a := by
            rw [UInt64.toNat_ofNat', Nat.mod_eq_of_lt (by omega)]
          have hword : m'.memory.readWord (UInt64.ofNat a) =
              m.memory.readWord (UInt64.ofNat a) := by
            apply Memory.readWord_congr
            intro c hc
            have hlow := ((inWord_iff (by omega)).1 hc).1
            exact hmem c (haddr ▸ hlow)
          rw [wordsFrom, wordsFrom, hrest, hword]

theorem ofNat_val (r : Xmm) : Xmm.ofNat r = r := Fin.ext (Nat.mod_eq_of_lt r.isLt)

def pushed (m : Machine) : Machine :=
  ⟨m.getXmm xmm0, m.rsp - 8, m.rbp, m.xmm, m.memory.writeWord (m.rsp - 8) (m.getXmm xmm0), m.calls⟩

section Words

variable {m : Machine} {hs : List Handle}

theorem parkedWords_pushed (hroom : 8 ≤ m.rsp.toNat)
    (htop : m.rsp.toNat + 8 * hs.count .spill ≤ 2 ^ 64) :
    parkedWords (pushed m) (.spill :: hs) = m.getXmm xmm0 :: parkedWords m hs := by
  have hlimit := m.rsp.toNat_lt
  have hrsp := toNat_sub_eight hroom
  have haddr : UInt64.ofNat (m.rsp.toNat - 8) = m.rsp - 8 := by rw [← hrsp, UInt64.ofNat_toNat]
  have hrest : wordsFrom (pushed m) m.rsp.toNat hs = wordsFrom m m.rsp.toNat hs := by
    refine wordsFrom_congr (fun _ _ ↦ rfl) (fun c hc ↦ ?_) htop
    apply Memory.read_writeWord_of_not_inWord
    rw [inWord_iff (by omega)]
    omega
  have hword : (pushed m).memory.readWord (m.rsp - 8) = m.getXmm xmm0 :=
    Memory.readWord_writeWord _ _ _
  have hlow : (pushed m).rsp.toNat = m.rsp.toNat - 8 := hrsp
  rw [parkedWords, wordsFrom, hlow, haddr, hword, Nat.sub_add_cancel hroom, hrest]
  rfl

theorem parkedWords_setXmm {r : Xmm} (w : UInt64) (hr : ∀ n, .register n ∈ hs → Xmm.ofNat n ≠ r)
    (htop : m.rsp.toNat + 8 * hs.count .spill ≤ 2 ^ 64) :
    parkedWords (m.setXmm r w) hs = parkedWords m hs := by
  refine wordsFrom_congr (fun n hn ↦ ?_) (fun _ _ ↦ rfl) htop
  rw [getXmm_setXmm, if_neg (hr n hn).symm]

end Words

theorem ne_ofNat_of_mem_registers {r : Xmm} (hr : r ∈ Pool.registers) (dest : Fin 2) :
    r ≠ Xmm.ofNat dest := by
  revert r dest
  decide

namespace Pool

variable {p : Pool}

theorem unstash_register {r : Xmm} (hr : r ∈ registers) (hused : p.isUsed r = true)
    (dest : Fin 2) :
    p.unstash (.register r) dest = (restore (.register r) dest, .ok (p.giveBack r)) := by
  have hdest : ¬ 1 < dest.val := by omega
  have hlow := mem_registers_iff.1 hr
  simp [unstash, hdest, restore, release, hlow, hused, giveBack, Xmm.update]

theorem unstash_spill {k : Nat} (hk : p.pendingSpills = k + 1) (dest : Fin 2) :
    p.unstash .spill dest = (restore .spill dest, .ok { p with pendingSpills := k }) := by
  have hdest : ¬ 1 < dest.val := by omega
  simp [unstash, hdest, hk, restore]

end Pool

namespace Bench

variable {b b' b'' : Bench} {m m' m'' : Machine} {acts acts' : List (Action model)}

/-- The handles that are out are held by the pool, each register once, and the spilled words are in
memory from the stack pointer up. -/
structure Sound (b : Bench) (m : Machine) : Prop where
  held : ∀ n, .register n ∈ b.parked → ∃ r ∈ Pool.registers, r.val = n ∧ b.pool.isUsed r = true
  apart : b.parked.Pairwise fun h h' ↦ ∀ n, h = .register n → h' ≠ .register n
  spills : b.parked.count .spill ≤ b.pool.pendingSpills
  above : m.rsp.toNat + 8 * b.parked.count .spill < 2 ^ 64

theorem sound_of_parked_eq_nil (h : b.parked = []) (m : Machine) : b.Sound m := by
  refine ⟨by simp [h], by simp [h], by simp [h], ?_⟩
  have hrsp := m.rsp.toNat_lt
  simp only [h, List.count_nil]
  omega

/-- The actions go through, and what they emit takes the machine `m` to `m'`. -/
structure Continues (b : Bench) (m : Machine) (acts : List (Action model)) (b' : Bench)
    (m' : Machine) : Prop where
  run : b.run acts = some b'
  exec : ∃ is, b'.code = b.code ++ is ∧ steps model is m = .ok m'

theorem Continues.nil (b : Bench) (m : Machine) : b.Continues m ([] : List (Action model)) b m :=
  ⟨rfl, [], (List.append_nil _).symm, rfl⟩

theorem Continues.append (h : b.Continues m acts b' m') (h' : b'.Continues m' acts' b'' m'') :
    b.Continues m (acts ++ acts') b'' m'' := by
  obtain ⟨hrun, is, hcode, hsteps⟩ := h
  obtain ⟨hrun', is', hcode', hsteps'⟩ := h'
  refine ⟨?_, is ++ is', ?_, (steps_append_of_ok hsteps).trans hsteps'⟩
  · rw [Bench.run] at hrun ⊢
    rw [List.foldlM_append, hrun]
    exact hrun'
  · rw [hcode', hcode, List.append_assoc]

theorem Continues.of_act {a : Action model} {is : List Instr} (hact : b.act a = some b')
    (hcode : b'.code = b.code ++ is) (hsteps : steps model is m = .ok m') :
    b.Continues m [a] b' m' :=
  ⟨by simp [Bench.run, hact], is, hcode, hsteps⟩

/-- The address above the spilled words. -/
def ceiling (b : Bench) (m : Machine) : Nat := m.rsp.toNat + 8 * b.parked.count .spill

theorem Sound.spill (h : b.Sound m) (hroom : 8 ≤ m.rsp.toNat) (code : List Instr) :
    Sound ⟨b.pool.spilled, .spill :: b.parked, code⟩ (pushed m) where
  held n hn := h.held n (by simpa using hn)
  apart := List.pairwise_cons.2 ⟨by simp, h.apart⟩
  spills := by
    rw [List.count_cons_self]
    exact Nat.succ_le_succ h.spills
  above := by
    have hrsp : (pushed m).rsp.toNat = m.rsp.toNat - 8 := toNat_sub_eight hroom
    have habove := h.above
    rw [List.count_cons_self, hrsp]
    omega

theorem Sound.ofNat_ne (h : b.Sound m) {r : Xmm} (hfree : b.pool.isUsed r = false) {n : Nat}
    (hn : .register n ∈ b.parked) : Xmm.ofNat n ≠ r := by
  obtain ⟨s, -, rfl, hused⟩ := h.held n hn
  rw [ofNat_val]
  rintro rfl
  rw [hfree] at hused
  cases hused

theorem Sound.take (h : b.Sound m) {r : Xmm} (hr : r ∈ Pool.registers)
    (hfree : b.pool.isUsed r = false) (code : List Instr) (w : UInt64) :
    Sound ⟨b.pool.take r, .register r :: b.parked, code⟩ (m.setXmm r w) where
  held n hn := by
    rcases List.mem_cons.1 hn with heq | hn
    · cases heq
      exact ⟨r, hr, rfl, by simp [Pool.isUsed_take]⟩
    · obtain ⟨s, hs, rfl, hused⟩ := h.held n hn
      exact ⟨s, hs, rfl, by simp [Pool.isUsed_take, hused]⟩
  apart := by
    refine List.pairwise_cons.2 ⟨?_, h.apart⟩
    rintro _ hmem n ⟨⟩ rfl
    exact h.ofNat_ne hfree hmem (ofNat_val r)
  spills := by
    rw [List.count_cons_of_ne (by simp)]
    exact h.spills
  above := by
    rw [List.count_cons_of_ne (by simp)]
    exact h.above

theorem Sound.exists_stash (h : b.Sound m) (model : CallModel) (force : Bool)
    (hroom : 8 ≤ m.rsp.toNat) :
    ∃ b' m', b.Continues m [(.stash force : Action model)] b' m' ∧ b'.Sound m' ∧
      b'.parked = (b.pool.stash force).1 :: b.parked ∧ b'.ceiling m' = b.ceiling m ∧
      parkedWords m' b'.parked = m.getXmm xmm0 :: parkedWords m b.parked := by
  rcases b.pool.stash_cases force with hs | ⟨r, hr, -, hfree, hs⟩
  · have hact : b.act (.stash force : Action model) =
        some ⟨b.pool.spilled, .spill :: b.parked, b.code ++ Pool.park .spill⟩ := by
      simp only [act, hs]
    have hrsp : (pushed m).rsp.toNat = m.rsp.toNat - 8 := toNat_sub_eight hroom
    refine ⟨_, pushed m, .of_act hact rfl rfl, h.spill hroom _, by rw [hs], ?_,
      parkedWords_pushed hroom h.above.le⟩
    simp only [ceiling, List.count_cons_self, hrsp]
    omega
  · have hact : b.act (.stash force : Action model) =
        some ⟨b.pool.take r, .register r :: b.parked, b.code ++ Pool.park (.register r)⟩ := by
      simp only [act, hs]
    have hsteps : steps model (Pool.park (.register r)) m =
        .ok (m.setXmm r (m.getXmm xmm0)) := by
      rw [Pool.park, ofNat_val]
      rfl
    refine ⟨_, _, .of_act hact rfl hsteps, h.take hr hfree _ _, by rw [hs], ?_, ?_⟩
    · simp [ceiling]
    · rw [parkedWords, wordsFrom, ofNat_val, getXmm_setXmm, if_pos rfl]
      exact congrArg _ (parkedWords_setXmm _ (fun n hn ↦ h.ofNat_ne hfree hn) h.above.le)

theorem Sound.giveBack (h : b.Sound m) {r : Xmm} {hs : List Handle}
    (hparked : b.parked = .register r :: hs) (code : List Instr) (hrsp : m'.rsp = m.rsp) :
    Sound ⟨b.pool.giveBack r, hs, code⟩ m' := by
  obtain ⟨hheld, hapart, hspills, habove⟩ := h
  rw [hparked] at hheld hapart hspills habove
  obtain ⟨hfirst, hapart⟩ := List.pairwise_cons.1 hapart
  rw [List.count_cons_of_ne (by simp)] at hspills habove
  refine ⟨fun n hn ↦ ?_, hapart, hspills, hrsp ▸ habove⟩
  obtain ⟨s, hs', rfl, hused⟩ := hheld n (List.mem_cons_of_mem _ hn)
  have hne : r ≠ s := by
    rintro rfl
    exact hfirst _ hn r rfl rfl
  exact ⟨s, hs', rfl, by simp [Pool.isUsed_giveBack, hne, hused]⟩

theorem Sound.pop (h : b.Sound m) {hs : List Handle} (hparked : b.parked = .spill :: hs)
    {k : Nat} (hk : b.pool.pendingSpills = k + 1) (code : List Instr)
    (hrsp : m'.rsp.toNat = m.rsp.toNat + 8) :
    Sound ⟨{ b.pool with pendingSpills := k }, hs, code⟩ m' := by
  obtain ⟨hheld, hapart, hspills, habove⟩ := h
  rw [hparked] at hheld hapart hspills habove
  rw [List.count_cons_self] at hspills habove
  refine ⟨fun n hn ↦ hheld n (List.mem_cons_of_mem _ hn), (List.pairwise_cons.1 hapart).2, ?_, ?_⟩
  · change hs.count .spill ≤ k
    omega
  · change m'.rsp.toNat + 8 * hs.count .spill < 2 ^ 64
    omega

theorem Sound.exists_unstash (h : b.Sound m) {handle : Handle} {hs : List Handle}
    (hparked : b.parked = handle :: hs) (model : CallModel) (dest : Fin 2) :
    ∃ b' m', b.Continues m [(.unstash dest : Action model)] b' m' ∧ b'.Sound m' ∧
      b'.parked = hs ∧ b'.ceiling m' = b.ceiling m ∧
      parkedWords m b.parked = m'.getXmm (Xmm.ofNat dest) :: parkedWords m' hs ∧
      ∀ r, r ≠ Xmm.ofNat dest → m'.getXmm r = m.getXmm r := by
  have hkeep : ∀ n, .register n ∈ hs → Xmm.ofNat n ≠ Xmm.ofNat dest := by
    intro n hn
    obtain ⟨r, hr, rfl, -⟩ := h.held n (hparked ▸ List.mem_cons_of_mem _ hn)
    rw [ofNat_val]
    exact ne_ofNat_of_mem_registers hr dest
  have habove := h.above
  rw [hparked] at habove
  cases handle with
  | register n =>
      obtain ⟨r, hr, rfl, hused⟩ := h.held n (hparked ▸ List.mem_cons_self)
      rw [List.count_cons_of_ne (by simp)] at habove
      have hact : b.act (.unstash dest : Action model) =
          some ⟨b.pool.giveBack r, hs, b.code ++ Pool.restore (.register r) dest⟩ := by
        simp only [act, hparked, Pool.unstash_register hr hused]
      obtain ⟨m', hsteps, hdest, hrsp, -, hmem, -, hother⟩ :=
        exists_steps_restore model (h := .register r) (m := m) rfl dest
      have hrsp : m'.rsp = m.rsp := hrsp
      refine ⟨_, m', .of_act hact rfl hsteps, h.giveBack hparked _ hrsp, rfl, ?_, ?_, hother⟩
      · simp [ceiling, hrsp, hparked]
      · rw [hparked, parkedWords, wordsFrom, hdest, parkedWords, hrsp]
        exact congrArg _ (wordsFrom_congr (fun n hn ↦ hother _ (hkeep n hn))
          (fun c _ ↦ by rw [hmem]) habove.le).symm
  | spill =>
      have hspills := h.spills
      rw [hparked, List.count_cons_self] at hspills
      rw [List.count_cons_self] at habove
      obtain ⟨k, hk⟩ : ∃ k, b.pool.pendingSpills = k + 1 := ⟨b.pool.pendingSpills - 1, by omega⟩
      have hact : b.act (.unstash dest : Action model) =
          some ⟨{ b.pool with pendingSpills := k }, hs, b.code ++ Pool.restore .spill dest⟩ := by
        simp only [act, hparked, Pool.unstash_spill hk]
      obtain ⟨m', hsteps, hdest, hrsp, -, hmem, -, hother⟩ :=
        exists_steps_restore model (h := .spill) (m := m) rfl dest
      have hrsp : m'.rsp.toNat = m.rsp.toNat + 8 := by
        rw [hrsp, Handle.rspAfter, UInt64.toNat_add, show (8 : UInt64).toNat = 8 from rfl]
        exact Nat.mod_eq_of_lt (by omega)
      refine ⟨_, m', .of_act hact rfl hsteps, h.pop hparked hk _ hrsp, rfl, ?_, ?_, hother⟩
      · simp only [ceiling, hparked, List.count_cons_self, hrsp]
        omega
      · rw [hparked, parkedWords, wordsFrom, hdest, parkedWords, hrsp, UInt64.ofNat_toNat]
        exact congrArg _ (wordsFrom_congr (fun n hn ↦ hother _ (hkeep n hn))
          (fun c _ ↦ by rw [hmem]) (by omega)).symm

theorem Sound.exists_interlude (h : b.Sound m) {kept : List Xmm} (c : Interlude model kept)
    (hkept : ∀ n, .register n ∈ b.parked → Xmm.ofNat n ∈ kept) :
    ∃ m', steps model c.code m = .ok m' ∧ (b.emit c.code).Sound m' ∧ m'.rsp = m.rsp ∧
      parkedWords m' b.parked = parkedWords m b.parked := by
  obtain ⟨m', hsteps, hrsp, habove, hxmm⟩ := c.runs m
  refine ⟨m', hsteps, ⟨h.held, h.apart, h.spills, hrsp ▸ h.above⟩, hrsp, ?_⟩
  rw [parkedWords, parkedWords, hrsp]
  refine wordsFrom_congr (fun n hn ↦ hxmm _ (hkept n hn)) (fun a ha ↦ ?_) h.above.le
  exact habove a (UInt64.le_iff_toNat_le.2 ha)

/-- What one action does to the list of parked words. -/
theorem Sound.exists_act (h : b.Sound m) (a : Action model) (hback : a.gain = -1 → b.parked ≠ [])
    (hroom : a.gain = 1 → 8 ≤ m.rsp.toNat) :
    ∃ b' m', b.Continues m [a] b' m' ∧ b'.Sound m' ∧ b'.ceiling m' = b.ceiling m ∧
      ((∃ handle w, a.gain = 1 ∧ b'.parked = handle :: b.parked ∧
        parkedWords m' b'.parked = w :: parkedWords m b.parked) ∨
      (∃ handle w, a.gain = -1 ∧ b.parked = handle :: b'.parked ∧
        parkedWords m b.parked = w :: parkedWords m' b'.parked) ∨
      a.gain = 0 ∧ b'.parked = b.parked ∧ parkedWords m' b'.parked = parkedWords m b.parked) := by
  cases a with
  | stash force =>
      obtain ⟨b', m', hcont, hsound, hparked, hceil, hwords⟩ :=
        h.exists_stash model force (hroom rfl)
      exact ⟨b', m', hcont, hsound, hceil, .inl ⟨_, _, rfl, hparked, hwords⟩⟩
  | unstash dest =>
      obtain ⟨handle, hs, hparked⟩ := List.exists_cons_of_ne_nil (hback rfl)
      obtain ⟨b', m', hcont, hsound, rfl, hceil, hwords, -⟩ := h.exists_unstash hparked model dest
      exact ⟨b', m', hcont, hsound, hceil, .inr (.inl ⟨_, _, rfl, hparked, hwords⟩)⟩
  | work c =>
      obtain ⟨m', hsteps, hsound, hrsp, hwords⟩ := h.exists_interlude c fun n hn ↦ by
        obtain ⟨r, hr, rfl, -⟩ := h.held n hn
        rwa [ofNat_val]
      refine ⟨b.emit c.code, m', .of_act rfl rfl hsteps, hsound, ?_, .inr (.inr ⟨rfl, rfl, hwords⟩)⟩
      rw [ceiling, ceiling, hrsp]
      rfl
  | overwrite c =>
      by_cases hspill : ∀ h ∈ b.parked, h = .spill
      · obtain ⟨m', hsteps, hsound, hrsp, hwords⟩ := h.exists_interlude c fun n hn ↦ by
          cases hspill _ hn
        refine ⟨b.emit c.code, m', .of_act ?_ rfl hsteps, hsound, ?_,
          .inr (.inr ⟨rfl, rfl, hwords⟩)⟩
        · rw [act, if_pos hspill]
        · rw [ceiling, ceiling, hrsp]
          rfl
      · have hact : b.act (.overwrite c) = some b := by rw [act, if_neg hspill]
        exact ⟨b, m, .of_act hact (List.append_nil _).symm rfl, h, rfl,
          .inr (.inr ⟨rfl, rfl, rfl⟩)⟩

theorem rsp_le_of_ceiling_eq {new : List Handle} (hceil : b'.ceiling m' = b.ceiling m)
    (hparked : b'.parked = new ++ b.parked) : m.rsp.toNat ≤ m'.rsp.toNat + 8 * new.length := by
  have hcount : new.count .spill ≤ new.length := List.count_le_length
  rw [ceiling, ceiling, hparked, List.count_append] at hceil
  omega

/-- What a sequence of actions does: it adds handles on top of those that were out and words on top
of those that were parked, as many as it has parked and not brought back. -/
theorem Sound.exists_run (h : b.Sound m) {d : Nat} (hacts : Within d acts)
    (hroom : 8 * d ≤ m.rsp.toNat) :
    ∃ b' m' new words, b.Continues m acts b' m' ∧ b'.Sound m' ∧ b'.ceiling m' = b.ceiling m ∧
      b'.parked = new ++ b.parked ∧ (new.length : Int) = gain acts ∧
      parkedWords m' b'.parked = words ++ parkedWords m b.parked ∧ words.length = new.length := by
  induction acts using List.reverseRecOn with
  | nil => exact ⟨b, m, [], [], .nil b m, h, rfl, rfl, rfl, rfl, rfl⟩
  | append_singleton acts a ih =>
      obtain ⟨b₁, m₁, new, words, hcont, hsound, hceil, hparked, hlen, hwords, hwlen⟩ :=
        ih hacts.left
      have hgain := hacts _ (List.prefix_refl _)
      rw [gain_append, gain_singleton] at hgain
      have hback : a.gain = -1 → b₁.parked ≠ [] := by
        intro ha hnil
        rw [hparked, List.append_eq_nil_iff] at hnil
        simp only [hnil.1, List.length_nil] at hlen
        omega
      have hfree : a.gain = 1 → 8 ≤ m₁.rsp.toNat := by
        intro ha
        have hlow := rsp_le_of_ceiling_eq hceil hparked
        omega
      obtain ⟨b₂, m₂, hcont', hsound', hceil', hcases⟩ := hsound.exists_act a hback hfree
      refine ⟨b₂, m₂, ?_⟩
      rw [gain_append, gain_singleton]
      rcases hcases with ⟨handle, w, ha, hparked', hwords'⟩ | ⟨handle, w, ha, hparked', hwords'⟩ |
        ⟨ha, hparked', hwords'⟩
      · refine ⟨handle :: new, w :: words, hcont.append hcont', hsound', hceil'.trans hceil, ?_, ?_,
          ?_, by simp [hwlen]⟩
        · rw [hparked', hparked, List.cons_append]
        · rw [List.length_cons]
          omega
        · rw [hwords', hwords, List.cons_append]
      · -- The handle and the word that are taken off are among those that were put on.
        obtain ⟨handle', new, rfl⟩ : ∃ x xs, new = x :: xs :=
          List.exists_cons_of_length_pos (by omega)
        obtain ⟨w', words, rfl⟩ : ∃ x xs, words = x :: xs :=
          List.exists_cons_of_length_pos (by simp [hwlen])
        rw [hparked, List.cons_append, List.cons.injEq] at hparked'
        rw [hwords, List.cons_append, List.cons.injEq] at hwords'
        rw [List.length_cons] at hlen
        exact ⟨new, words, hcont.append hcont', hsound', hceil'.trans hceil, hparked'.2.symm,
          by omega, hwords'.2.symm, by simpa using hwlen⟩
      · exact ⟨new, words, hcont.append hcont', hsound', hceil'.trans hceil, hparked'.trans hparked,
          by omega, hwords'.trans hwords, hwlen⟩

theorem Sound.exists_nested (h : b.Sound m) {d : Nat} (hacts : Nested d acts)
    (hroom : 8 * d ≤ m.rsp.toNat) :
    ∃ b' m', b.Continues m acts b' m' ∧ b'.Sound m' ∧ m'.rsp = m.rsp ∧ b'.parked = b.parked ∧
      parkedWords m' b'.parked = parkedWords m b.parked := by
  obtain ⟨b', m', new, words, hcont, hsound, hceil, hparked, hlen, hwords, hwlen⟩ :=
    h.exists_run hacts.within hroom
  obtain rfl : new = [] := by
    apply List.eq_nil_of_length_eq_zero
    have := hacts.gain_eq
    omega
  obtain rfl : words = [] := List.eq_nil_of_length_eq_zero hwlen
  rw [List.nil_append] at hparked hwords
  refine ⟨b', m', hcont, hsound, ?_, hparked, hwords⟩
  rw [ceiling, ceiling, hparked] at hceil
  exact UInt64.toNat_inj.1 (Nat.add_right_cancel hceil)

/-- A value that is parked at `b` and `m` and brought back from `b₁` and `m₁`. -/
structure RoundTrip (b : Bench) (m : Machine) (force : Bool) (inner : List (Action model))
    (dest : Fin 2) (b₁ : Bench) (m₁ : Machine) (b₂ : Bench) (m₂ : Machine) : Prop where
  parks : b.Continues m (.stash force :: inner) b₁ m₁
  brings : b₁.Continues m₁ [(.unstash dest : Action model)] b₂ m₂
  out : b₁.parked = (b.pool.stash force).1 :: b.parked
  back : b₂.parked = b.parked
  value : m₂.getXmm (Xmm.ofNat dest) = m.getXmm xmm0
  other : ∀ r, r ≠ Xmm.ofNat dest → m₂.getXmm r = m₁.getXmm r
  words : parkedWords m₁ b₁.parked = m.getXmm xmm0 :: parkedWords m b.parked
  wordsBack : parkedWords m₂ b₂.parked = parkedWords m b.parked

theorem Sound.exists_roundTrip (h : b.Sound m) {d : Nat} {inner : List (Action model)}
    (hinner : Nested d inner) (hroom : 8 * (d + 1) ≤ m.rsp.toNat) (force : Bool) (dest : Fin 2) :
    ∃ b₁ m₁ b₂ m₂, b.RoundTrip m force inner dest b₁ m₁ b₂ m₂ := by
  obtain ⟨b', m', hstash, hsound, hparked, hceil, hwords⟩ :=
    h.exists_stash model force (by omega)
  have hnew : b'.parked = [(b.pool.stash force).1] ++ b.parked := hparked
  have hlow := rsp_le_of_ceiling_eq hceil hnew
  rw [List.length_singleton] at hlow
  obtain ⟨b₁, m₁, hcont, hsound₁, -, hparked₁, hwords₁⟩ := hsound.exists_nested hinner (by omega)
  obtain ⟨b₂, m₂, hback, -, hparked₂, -, hwords₂, hother⟩ :=
    hsound₁.exists_unstash (hparked₁.trans hparked) model dest
  have hout := hwords₁.trans hwords
  rw [hwords₂, List.cons.injEq] at hout
  exact ⟨b₁, m₁, b₂, m₂, hstash.append hcont, hback, hparked₁.trans hparked, hparked₂, hout.1,
    hother, hwords₁.trans hwords, hparked₂ ▸ hout.2⟩

end Bench

/-- An instruction that neither reads nor writes memory. -/
def OffMemory (i : Instr) : Prop :=
  ∀ (m : Machine) (a : UInt64), ¬ m.Reads i (.byte a) ∧ ¬ m.Writes i (.byte a)

theorem offMemory_of_register {n : Nat} {p : Pool} {dest : Nat} {i : Instr}
    (hi : i ∈ Pool.park (.register n) ++ (p.unstash (.register n) dest).1) : OffMemory i := by
  rw [Pool.unstash] at hi
  split at hi <;> simp only [Pool.park, List.append_nil, List.singleton_append, List.mem_cons,
    List.not_mem_nil, or_false] at hi
  · subst hi
    exact fun _ _ ↦ ⟨id, id⟩
  · rcases hi with rfl | rfl <;> exact fun _ _ ↦ ⟨id, id⟩

/-- Values are parked and brought back in any nesting, while other code runs that keeps the
registers of the pool, or any code at all while no register handle is out. Then all of it goes
through, each value comes back into `xmm0` or `xmm1` bit for bit, nothing else that is parked
changes, nor does any other register, and the stack pointer ends where it was. A value in a register
needs no memory. To start with nothing parked, any pool and any machine will do
(`Bench.sound_of_parked_eq_nil`). -/
theorem parked_values_come_back {b : Bench} {m : Machine} (hb : b.Sound m) {d : Nat}
    {acts : List (Action model)} (hacts : Nested d acts) (hroom : 8 * d ≤ m.rsp.toNat) :
    (∃ b' m', b.Continues m acts b' m' ∧ m'.rsp = m.rsp ∧ b'.parked = b.parked ∧
      parkedWords m' b'.parked = parkedWords m b.parked) ∧
    ∀ before force inner dest after e,
      acts = before ++ .stash force :: (inner ++ .unstash dest :: after) → Nested e inner →
      ∃ b₁ m₁ b₂ m₂ b₃ m₃, b.Continues m before b₁ m₁ ∧
        b₁.RoundTrip m₁ force inner dest b₂ m₂ b₃ m₃ ∧
        ∀ n, (b₁.pool.stash force).1 = .register n →
          ∀ i ∈ Pool.park (.register n) ++ (b₂.pool.unstash (.register n) dest).1, OffMemory i := by
  constructor
  · obtain ⟨b', m', hcont, -, hrsp, hparked, hwords⟩ := hb.exists_nested hacts hroom
    exact ⟨b', m', hcont, hrsp, hparked, hwords⟩
  · rintro before force inner dest after e rfl hinner
    obtain ⟨b₁, m₁, new, -, hcont, hsound, hceil, hparked, hlen, -⟩ :=
      hb.exists_run hacts.within.left hroom
    have hlow := Bench.rsp_le_of_ceiling_eq hceil hparked
    -- What is parked inside leaves room for the value itself and for those parked before it.
    have hdepth : ∀ u, u <+: inner → gain u + 1 + new.length ≤ d := by
      rintro u ⟨v, rfl⟩
      have hgain := (hacts.within (before ++ .stash force :: u) ⟨v ++ .unstash dest :: after,
        by simp⟩).2
      rw [gain_append, gain_cons, Action.gain] at hgain
      omega
    have hempty := hdepth [] List.nil_prefix
    rw [gain, List.map_nil, List.sum_nil] at hempty
    have hnested : Nested (d - 1 - new.length) inner := by
      refine ⟨fun u hu ↦ ⟨(hinner.within u hu).1, ?_⟩, hinner.gain_eq⟩
      have hu := hdepth u hu
      omega
    obtain ⟨b₂, m₂, b₃, m₃, htrip⟩ := hsound.exists_roundTrip hnested (by omega) force dest
    exact ⟨b₁, m₁, b₂, m₂, b₃, m₃, hcont, htrip, fun n _ i hi ↦ offMemory_of_register hi⟩

/-- Overwrites all registers, then parks a value and brings it back into `xmm1`. -/
def errand : List (Action model) :=
  [.overwrite (.load ((List.finRange 8).map (·, 7)) 7 (by simp)), .stash false,
    .work (.load [(xmm0, 8), (xmm1, 9)] 10 (by
      rw [List.forall_mem_cons, List.forall_mem_singleton]
      decide)), .unstash 1]

theorem parked_values_come_back_of_errand :
    ∃ b₁ m₁ b₂ m₂, Bench.RoundTrip ⟨.new true, [], []⟩ (.entry 2 3) true
      (errand : List (Action fun _ _ ↦ none)) 0 b₁ m₁ b₂ m₂ ∧
      m₂.getXmm xmm0 = (2 : Double).bits := by
  have hacts : Nested 2 (.stash true :: (errand ++ [.unstash 0]) : List (Action fun _ _ ↦ none)) :=
    ⟨by decide, by decide⟩
  have hroom : 8 * 2 ≤ (0xfffffffffffffff8 : UInt64).toNat := by decide
  have hsound := Bench.sound_of_parked_eq_nil (b := ⟨.new true, [], []⟩) rfl (.entry 2 3)
  obtain ⟨b, m, b₁, m₁, b₂, m₂, ⟨hrun, is, hcode, hsteps⟩, htrip, -⟩ :=
    (parked_values_come_back hsound hacts hroom).2 [] true errand 0 [] 1 rfl
      ⟨by decide, by decide⟩
  cases hrun
  obtain rfl : is = [] := by simpa using hcode
  cases hsteps
  exact ⟨b₁, m₁, b₂, m₂, htrip, htrip.value⟩

end Formula.Code
