import Formula.Code.Pool
import Mathlib

/-!
# What the pool holds

`Pool.Holds` tells of a register number whether a value is parked there. The number of registers in
use is the size of a set (`Pool.occupied_eq_card`), so it changes by one when a register is taken or
given back. A register that is taken is the lowest one free: all below it are held. Each operation
of the pool is characterized by what the pool holds.
-/

namespace Formula.Code.Pool

open X86

variable {p : Pool} {r s : Xmm} {n : Nat}

/-- A value is parked in register `n`. -/
def Holds (p : Pool) (n : Nat) : Prop := ∃ h : n < 8, p.isUsed ⟨n, h⟩ = true

theorem holds_val_iff : p.Holds r ↔ p.isUsed r = true := ⟨fun ⟨_, h⟩ ↦ h, fun h ↦ ⟨r.2, h⟩⟩

theorem not_holds_val_iff : ¬ p.Holds r ↔ p.isUsed r = false := by
  rw [holds_val_iff, Bool.not_eq_true]

theorem mem_registers_iff : r ∈ registers ↔ 2 ≤ r.val := by
  revert r
  decide

theorem pairwise_lt_registers : registers.Pairwise (· < ·) := by decide

theorem isUsed_take (p : Pool) (r s : Xmm) :
    (p.take r).isUsed s = (decide (r = s) || p.isUsed s) := by
  simp only [isUsed, take, Xmm.update, Vector.get_eq_getElem, Vector.getElem_set, Fin.ext_iff]
  split <;> simp_all

/-- The pool without the value in a register. -/
def giveBack (p : Pool) (r : Xmm) : Pool := { p with used := r.update p.used false }

theorem isUsed_giveBack (p : Pool) (r s : Xmm) :
    (p.giveBack r).isUsed s = (!decide (r = s) && p.isUsed s) := by
  simp only [isUsed, giveBack, Xmm.update, Vector.get_eq_getElem, Vector.getElem_set, Fin.ext_iff]
  split <;> simp_all

/-- The pool with one more value on the stack. -/
def spilled (p : Pool) : Pool := { p.countSpill with pendingSpills := p.pendingSpills + 1 }

/-- The registers in use. -/
def inUse (p : Pool) : Finset Xmm := {r | p.isUsed r = true}

@[simp] theorem mem_inUse : r ∈ p.inUse ↔ p.isUsed r = true := by simp [inUse]

theorem occupied_eq_card (p : Pool) : p.occupied = p.inUse.card := by
  have hcount := Fin.card_filter_univ_eq_vector_get_eq_count true
    (⟨p.used.toList, p.used.length_toList⟩ : List.Vector Bool 8)
  rw [occupied, inUse]
  exact hcount.symm.trans (congrArg Finset.card (Finset.filter_congr fun r _ ↦ Iff.rfl))

theorem occupied_new (enabled : Bool) : (new enabled).occupied = 0 := by
  cases enabled <;> rfl

theorem occupied_take (h : p.isUsed r = false) : (p.take r).occupied = p.occupied + 1 := by
  have hinsert : (p.take r).inUse = insert r p.inUse := by
    ext s
    simp [isUsed_take, @eq_comm _ r s]
  rw [occupied_eq_card, occupied_eq_card, hinsert, Finset.card_insert_of_notMem (by simp [h])]

theorem occupied_giveBack (h : p.isUsed r = true) :
    (p.giveBack r).occupied + 1 = p.occupied := by
  have herase : (p.giveBack r).inUse = p.inUse.erase r := by
    ext s
    simp [isUsed_giveBack, @eq_comm _ r s]
  rw [occupied_eq_card, occupied_eq_card, herase, Finset.card_erase_add_one (by simp [h])]

/-- Registers from `2` to `m` are at most `m - 1`. -/
theorem occupied_le {m : Nat} (h : ∀ r, p.isUsed r = true → 2 ≤ r.val ∧ r.val ≤ m) :
    p.occupied ≤ m - 1 := by
  rw [occupied_eq_card, ← Finset.card_map Fin.valEmbedding]
  calc (p.inUse.map Fin.valEmbedding).card
    _ ≤ (Finset.Icc 2 m).card := by
      apply Finset.card_le_card
      intro n hn
      obtain ⟨r, hr, rfl⟩ := Finset.mem_map.1 hn
      exact Finset.mem_Icc.2 (h r (mem_inUse.1 hr))
    _ = m - 1 := by simp

/-- If all below register `r` are held, there are at least `r - 2` of them. -/
theorem le_occupied (h : ∀ s : Xmm, 2 ≤ s.val → s < r → p.isUsed s = true) :
    r.val ≤ p.occupied + 2 := by
  rw [occupied_eq_card, ← Finset.card_map Fin.valEmbedding]
  have hsub : Finset.Ico 2 r.val ⊆ p.inUse.map Fin.valEmbedding := by
    intro n hn
    obtain ⟨hlow, hhigh⟩ := Finset.mem_Ico.1 hn
    exact Finset.mem_map.2 ⟨⟨n, hhigh.trans r.2⟩, mem_inUse.2 (h _ hlow hhigh), rfl⟩
  have hcard := Finset.card_le_card hsub
  rw [Nat.card_Ico] at hcard
  omega

theorem free?_eq_some_iff :
    p.free? = some r ↔
      2 ≤ r.val ∧ p.isUsed r = false ∧ ∀ s : Xmm, 2 ≤ s.val → s < r → p.isUsed s = true := by
  rw [free?, List.find?_eq_some_iff_append]
  constructor
  · rintro ⟨hfree, before, behind, hsplit, hbefore⟩
    refine ⟨mem_registers_iff.1 (by simp [hsplit]), by simpa using hfree, ?_⟩
    intro s hs hlt
    -- In increasing order, what is lower than `r` stands before it.
    have hmem := mem_registers_iff.2 hs
    have hsorted := pairwise_lt_registers
    rw [hsplit, List.mem_append, List.mem_cons] at hmem
    rw [hsplit, List.pairwise_append, List.pairwise_cons] at hsorted
    rcases hmem with hs | rfl | hs
    · simpa using hbefore s hs
    · exact absurd hlt (lt_irrefl _)
    · exact absurd (hsorted.2.1.1 s hs) hlt.not_gt
  · rintro ⟨hr, hfree, hlow⟩
    obtain ⟨before, behind, hsplit⟩ := List.append_of_mem (mem_registers_iff.2 hr)
    refine ⟨by simp [hfree], before, behind, hsplit, ?_⟩
    intro s hs
    have hmem : s ∈ registers := hsplit ▸ List.mem_append_left _ hs
    have hsorted := pairwise_lt_registers
    rw [hsplit, List.pairwise_append] at hsorted
    simp [hlow s (mem_registers_iff.1 hmem) (hsorted.2.2 s hs r List.mem_cons_self)]

theorem free?_eq_none_iff : p.free? = none ↔ ∀ s : Xmm, 2 ≤ s.val → p.isUsed s = true := by
  simp [free?, List.find?_eq_none, mem_registers_iff]

/-- The lowest free register is handed out, if the pool is switched on and there is one. -/
theorem acquire_cases (p : Pool) :
    (∃ r, p.enabled = true ∧ p.free? = some r ∧ p.acquire = (.register r, p.take r)) ∨
      (p.enabled = false ∨ p.free? = none) ∧ p.acquire = (.spill, p.countSpill) := by
  unfold acquire
  cases henabled : p.enabled with
  | false => exact .inr ⟨.inl rfl, rfl⟩
  | true =>
      cases hfree : p.free? with
      | none => exact .inr ⟨.inr rfl, rfl⟩
      | some r => exact .inl ⟨r, rfl, rfl, rfl⟩

/-- A value is parked in the lowest free register, or on the stack if it must be or there is no such
register. -/
theorem stash_spec (p : Pool) (force : Bool) :
    (∃ r, force = false ∧ p.enabled = true ∧ p.free? = some r ∧
        p.stash force = (.register r, p.take r)) ∨
      (force = true ∨ p.enabled = false ∨ p.free? = none) ∧
        p.stash force = (.spill, p.spilled) := by
  cases force with
  | true => exact .inr ⟨.inl rfl, rfl⟩
  | false =>
      rcases p.acquire_cases with ⟨r, henabled, hfree, hacquire⟩ | ⟨hnone, hacquire⟩
      · exact .inl ⟨r, rfl, henabled, hfree, by simp [stash, hacquire]⟩
      · exact .inr ⟨.inr hnone, by simp [stash, hacquire, spilled, countSpill]⟩

theorem acquire_eq_register_iff :
    p.acquire.1 = .register n ↔ p.enabled = true ∧ 2 ≤ n ∧ n < 8 ∧ ¬ p.Holds n ∧
      ∀ k, 2 ≤ k → k < n → p.Holds k := by
  have hlowest : ∀ r, p.free? = some r ↔
      2 ≤ r.val ∧ r.val < 8 ∧ ¬ p.Holds r ∧ ∀ k, 2 ≤ k → k < r.val → p.Holds k := by
    intro r
    rw [free?_eq_some_iff, not_holds_val_iff]
    refine ⟨fun ⟨hr, hfree, hlow⟩ ↦ ⟨hr, r.2, hfree, ?_⟩,
      fun ⟨hr, _, hfree, hlow⟩ ↦ ⟨hr, hfree, ?_⟩⟩
    · intro k hk hkr
      exact ⟨hkr.trans r.2, hlow ⟨k, hkr.trans r.2⟩ hk hkr⟩
    · intro s hs hsr
      exact holds_val_iff.1 (hlow s hs hsr)
  rcases p.acquire_cases with ⟨r, henabled, hfree, hacquire⟩ | ⟨hnone, hacquire⟩
  · rw [hacquire, Handle.register.injEq]
    constructor
    · rintro rfl
      exact ⟨henabled, (hlowest r).1 hfree⟩
    · rintro ⟨-, h2, h8, hrest⟩
      have hn := (hlowest ⟨n, h8⟩).2 ⟨h2, h8, hrest⟩
      rw [hfree, Option.some.injEq] at hn
      exact congrArg Fin.val hn
  · rw [hacquire]
    refine iff_of_false (by simp) ?_
    rintro ⟨henabled, h2, h8, hrest⟩
    rcases hnone with hoff | hnone
    · exact absurd henabled (by simp [hoff])
    · rw [(hlowest ⟨n, h8⟩).2 ⟨h2, h8, hrest⟩] at hnone
      cases hnone

theorem acquire_eq_spill_iff :
    p.acquire.1 = .spill ↔ p.enabled = false ∨ ∀ k, 2 ≤ k → k < 8 → p.Holds k := by
  have hfull : p.free? = none ↔ ∀ k, 2 ≤ k → k < 8 → p.Holds k := by
    rw [free?_eq_none_iff]
    exact ⟨fun h k h2 h8 ↦ ⟨h8, h ⟨k, h8⟩ h2⟩, fun h s hs ↦ holds_val_iff.1 (h s hs s.2)⟩
  rw [← hfull]
  rcases p.acquire_cases with ⟨r, henabled, hfree, hacquire⟩ | ⟨hnone, hacquire⟩
  · simp [hacquire, henabled, hfree]
  · simp [hacquire, hnone]

/-- A register is given back if it is one of the pool's and in use. -/
theorem release_register_cases (p : Pool) (n : Nat) :
    (∃ r : Xmm, r.val = n ∧ 2 ≤ r.val ∧ p.isUsed r = true ∧
      p.release (.register n) = .ok (p.giveBack r)) ∨
    (n < 2 ∨ ¬ p.Holds n) ∧ ∃ f, p.release (.register n) = .error f := by
  by_cases hn : 2 ≤ n ∧ n < 8
  · cases hused : p.isUsed ⟨n, hn.2⟩ with
    | true =>
        refine .inl ⟨⟨n, hn.2⟩, rfl, hn.1, hused, ?_⟩
        simp [release, hn, hused, giveBack, Xmm.update]
    | false =>
        refine .inr ⟨.inr fun ⟨_, h⟩ ↦ ?_, .doubleFree n, by simp [release, hn, hused]⟩
        rw [hused] at h
        cases h
  · refine .inr ⟨?_, .notAllocatable n, by simp [release, hn]⟩
    by_cases hlow : n < 2
    · exact .inl hlow
    · exact .inr fun ⟨h8, _⟩ ↦ hn ⟨not_lt.1 hlow, h8⟩

/-- A value is brought back from a register that is in use or from the top of the stack; any other
attempt fails. -/
theorem unstash_cases (p : Pool) (h : Handle) (dest : Nat) :
    (∃ (is : List Instr) (r : Xmm), h = .register r ∧ p.isUsed r = true ∧
        p.unstash h dest = (is, .ok (p.giveBack r))) ∨
      (∃ is k, h = .spill ∧ p.pendingSpills = k + 1 ∧
        p.unstash h dest = (is, .ok { p with pendingSpills := k })) ∨
      ∃ is f, p.unstash h dest = (is, .error f) := by
  unfold unstash
  by_cases hdest : 1 < dest
  · exact .inr (.inr ⟨_, _, if_pos hdest⟩)
  · rw [if_neg hdest]
    cases h with
    | register n =>
        rcases p.release_register_cases n with ⟨r, rfl, -, hused, hok⟩ | ⟨-, f, herr⟩
        · exact .inl ⟨_, r, rfl, hused, by simp only [hok]; rfl⟩
        · exact .inr (.inr ⟨_, f, by simp only [herr]; rfl⟩)
    | spill =>
        cases hspills : p.pendingSpills with
        | zero => exact .inr (.inr ⟨_, _, rfl⟩)
        | succ k => exact .inr (.inl ⟨_, k, rfl, rfl, rfl⟩)

end Formula.Code.Pool
