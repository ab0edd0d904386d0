import Mathlib

/-!
# Rounding to a double

The operations on doubles compute a mantissa and two bits about what is cut off. The bits are enough
to round the exact result, so the outcome depends on the exact result alone: it is `nearest`, the
double that stands closest to it, halves going to the even neighbour. Products need an exponent that
is low enough (`mul_finite`); quotients lower it themselves (`div_finite`).
-/

namespace Formula.Double

open Float.Model (Format UnpackedFloat totalExponent)
open Float.Model.UnpackedFloat

/-- The natural number nearest to a rational, halves to the even one. -/
def roundEven (x : ℚ) : ℕ :=
  if x - ⌊x⌋₊ < 1 / 2 then ⌊x⌋₊
  else if x - ⌊x⌋₊ = 1 / 2 then ⌊x⌋₊ + ⌊x⌋₊ % 2
  else ⌊x⌋₊ + 1

/-- The power of two that the last bit of the mantissa stands for, in doubles of the size of `x`. -/
def lastPlace (x : ℚ) : ℤ := max (Int.log 2 x - 52) (-1074)

/-- The double with a mantissa and an exponent. The mantissa can be one bit too long. -/
def settle (s : Sign) (m : ℕ) (e : ℤ) : UnpackedFloat :=
  match shiftToTargetExponent .binary64 m e .exact with
  | (em, e') =>
    if h : em.mantissa = 0 then .zero s else .finite s em.mantissa e' (Nat.pos_of_ne_zero h)

/-- The double nearest to a positive rational. -/
def nearest (s : Sign) (x : ℚ) : UnpackedFloat :=
  settle s (roundEven (x / 2 ^ lastPlace x)) (lastPlace x)

theorem roundWithAccuracy_eq_settle (s : Sign) (m : ℕ) (e : ℤ) (acc : Accuracy) :
    roundWithAccuracy .binary64 s m e acc =
      settle s (shiftToTargetExponent .binary64 m e acc).1.roundedMantissa
        (shiftToTargetExponent .binary64 m e acc).2 := rfl

theorem targetExponent_binary64 (t : ℤ) :
    Format.binary64.targetExponent t = max (t - 53) (-1074) := rfl

/-- The mantissa is the whole part of `x`, and the bits tell where the rest lies. -/
def Brackets (em : ExtendedMantissa) (x : ℚ) : Prop :=
  ∃ f : ℚ, x = em.mantissa + f ∧ 0 ≤ f ∧ f < 1 ∧ (em.roundBit = true ↔ 1 / 2 ≤ f) ∧
    (em.stickyBit = true ↔ f ≠ 0 ∧ f ≠ 1 / 2)

namespace Brackets

variable {em : ExtendedMantissa} {x : ℚ}

theorem floor_eq (h : Brackets em x) : ⌊x⌋₊ = em.mantissa := by
  obtain ⟨f, rfl, hf, hf', -⟩ := h
  rw [Nat.floor_eq_iff (by positivity)]
  constructor
  · linarith
  · linarith

theorem roundedMantissa_eq (h : Brackets em x) : em.roundedMantissa = roundEven x := by
  rw [roundEven, h.floor_eq]
  obtain ⟨f, rfl, hf, hf', hround, hsticky⟩ := h
  obtain ⟨m, round, sticky⟩ := em
  simp only [add_sub_cancel_left] at hround hsticky ⊢
  cases round <;> cases sticky <;>
    simp only [ExtendedMantissa.roundedMantissa, ExtendedMantissa.accuracy,
      Accuracy.roundToNearestEven] <;> grind

theorem shiftRightOne (h : Brackets em x) : Brackets em.shiftRightOne (x / 2) := by
  obtain ⟨f, rfl, hf, hf', hround, hsticky⟩ := h
  obtain ⟨m, round, sticky⟩ := em
  simp only at hround hsticky
  have hm : (m : ℚ) = 2 * ((m / 2 : ℕ) : ℚ) + ((m % 2 : ℕ) : ℚ) := by
    exact_mod_cast (Nat.div_add_mod m 2).symm
  refine ⟨((m % 2 : ℕ) + f) / 2, ?_, ?_, ?_, ?_, ?_⟩
  · simp only [ExtendedMantissa.shiftRightOne]
    rw [hm]
    ring
  · positivity
  · have hbit : ((m % 2 : ℕ) : ℚ) ≤ 1 := by
      exact_mod_cast Nat.le_of_lt_succ (Nat.mod_lt m two_pos)
    linarith
  all_goals
    simp only [ExtendedMantissa.shiftRightOne, Bool.or_eq_true]
    rcases Nat.mod_two_eq_zero_or_one m with h | h <;> simp only [h] <;> grind

theorem shiftRight (h : Brackets em x) (n : ℕ) : Brackets (em >>> n) (x / 2 ^ n) := by
  change Brackets (n.repeat ExtendedMantissa.shiftRightOne em) _
  induction n with
  | zero => simpa [Nat.repeat] using h
  | succ n ih =>
      rw [pow_succ, ← div_div]
      exact ih.shiftRightOne

end Brackets

variable {s : Sign} {m : ℕ} {e : ℤ} {acc : Accuracy} {x : ℚ}

theorem log_eq_iff {x : ℚ} (hx : 0 < x) {n : ℤ} :
    Int.log 2 x = n ↔ (2 : ℚ) ^ n ≤ x ∧ x < 2 ^ (n + 1) := by
  have hle := Int.zpow_le_iff_le_log (b := 2) one_lt_two (x := n) hx
  have hlt := Int.lt_zpow_iff_log_lt (b := 2) one_lt_two (x := n + 1) hx
  push_cast at hle hlt
  rw [hle, hlt]
  omega

@[simp] theorem mantissa_ofMantissaAndAccuracy (m : ℕ) (acc : Accuracy) :
    (ExtendedMantissa.ofMantissaAndAccuracy m acc).mantissa = m := by
  cases acc with
  | exact => rfl
  | inexact o => cases o <;> rfl

theorem Brackets.bounds (h : Brackets (.ofMantissaAndAccuracy m acc) x) :
    (m : ℚ) ≤ x ∧ x < m + 1 := by
  obtain ⟨f, rfl, hf, hf', -⟩ := h
  rw [mantissa_ofMantissaAndAccuracy]
  constructor
  · linarith
  · linarith

/-- A mantissa that is not zero has the leading bit of the exact value. -/
theorem log_of_brackets (hx : 0 < x) (hm : m ≠ 0)
    (h : Brackets (.ofMantissaAndAccuracy m acc) (x / 2 ^ e)) : Int.log 2 x = m.log2 + e := by
  obtain ⟨hle, hlt⟩ := h.bounds
  have he : (0 : ℚ) < 2 ^ e := by positivity
  rw [le_div_iff₀ he] at hle
  rw [div_lt_iff₀ he] at hlt
  have hlog : (2 : ℚ) ^ m.log2 ≤ m := by exact_mod_cast Nat.log2_self_le hm
  have hlog' : (m : ℚ) + 1 ≤ 2 ^ (m.log2 + 1) := by exact_mod_cast Nat.lt_log2_self
  rw [log_eq_iff hx]
  constructor
  · calc (2 : ℚ) ^ ((m.log2 : ℤ) + e)
      _ = 2 ^ m.log2 * 2 ^ e := by rw [zpow_add₀ two_ne_zero, zpow_natCast]
      _ ≤ m * 2 ^ e := by gcongr
      _ ≤ x := hle
  · calc x
      _ < (m + 1) * 2 ^ e := hlt
      _ ≤ 2 ^ (m.log2 + 1) * 2 ^ e := by gcongr
      _ = 2 ^ ((m.log2 : ℤ) + e + 1) := by
        rw [← zpow_natCast, ← zpow_add₀ two_ne_zero]
        congr 1
        push_cast
        ring

theorem targetExponent_of_brackets (hx : 0 < x)
    (h : Brackets (.ofMantissaAndAccuracy m acc) (x / 2 ^ e)) (hm : m = 0 → e ≤ -1074) :
    Format.binary64.targetExponent (totalExponent m e) = lastPlace x := by
  rw [targetExponent_binary64, lastPlace, totalExponent]
  by_cases h0 : m = 0
  · -- Nothing of the exact value reaches the mantissa, so it lies below the smallest double.
    have hsmall : Int.log 2 x < e := by
      have hlt := h.bounds.2
      rw [h0, Nat.cast_zero, zero_add, div_lt_one (by positivity)] at hlt
      exact (Int.lt_zpow_iff_log_lt (b := 2) one_lt_two hx).1 (by exact_mod_cast hlt)
    have hlog2 : (Nat.log2 0 : ℤ) = 0 := rfl
    have := hm h0
    rw [h0, hlog2]
    omega
  · rw [log_of_brackets hx h0 h]
    omega

/-- What is computed depends on the exact value alone. -/
theorem roundWithAccuracy_eq_nearest (hx : 0 < x)
    (h : Brackets (.ofMantissaAndAccuracy m acc) (x / 2 ^ e)) (hm : m = 0 → e ≤ -1074)
    (he : e ≤ lastPlace x) : roundWithAccuracy .binary64 s m e acc = nearest s x := by
  have htarget := targetExponent_of_brackets hx h hm
  have hshift : e + ((lastPlace x - e).toNat : ℤ) = lastPlace x := by omega
  have hround := (h.shiftRight (lastPlace x - e).toNat).roundedMantissa_eq
  have hvalue : x / 2 ^ e / 2 ^ (lastPlace x - e).toNat = x / 2 ^ lastPlace x := by
    rw [div_div, ← zpow_natCast, ← zpow_add₀ two_ne_zero, hshift]
  rw [hvalue] at hround
  rw [roundWithAccuracy_eq_settle, nearest, ← hround]
  simp only [shiftToTargetExponent, htarget, shiftToExponent, hshift]

theorem brackets_exact (m : ℕ) : Brackets (.ofMantissaAndAccuracy m .exact) m :=
  ⟨0, by simp [ExtendedMantissa.ofMantissaAndAccuracy]⟩

theorem brackets_div (m : ℕ) {n : ℕ} (hn : 0 < n) :
    Brackets (.ofMantissaAndAccuracy (m / n) (accuracyOfFraction (m % n) n)) (m / n : ℚ) := by
  have hn' : (0 : ℚ) < n := by exact_mod_cast hn
  have hlt : ((m % n : ℕ) : ℚ) < n := by exact_mod_cast Nat.mod_lt m hn
  have hm : (m : ℚ) = n * ((m / n : ℕ) : ℚ) + ((m % n : ℕ) : ℚ) := by
    exact_mod_cast (Nat.div_add_mod m n).symm
  have hhalf : (1 / 2 : ℚ) ≤ ((m % n : ℕ) : ℚ) / n ↔ n ≤ 2 * (m % n) := by
    rw [le_div_iff₀ hn', ← @Nat.cast_le ℚ]
    push_cast
    constructor <;> intro h <;> linarith
  have hhalf' : ((m % n : ℕ) : ℚ) / n = 1 / 2 ↔ 2 * (m % n) = n := by
    rw [div_eq_iff hn'.ne', ← @Nat.cast_inj ℚ]
    push_cast
    constructor <;> intro h <;> linarith
  have hzero : ((m % n : ℕ) : ℚ) / n = 0 ↔ m % n = 0 := by
    rw [div_eq_zero_iff, or_iff_left hn'.ne', Nat.cast_eq_zero]
  refine ⟨((m % n : ℕ) : ℚ) / n, ?_, by positivity, (div_lt_one hn').2 hlt, ?_⟩
  · rw [mantissa_ofMantissaAndAccuracy]
    nth_rewrite 1 [hm]
    field_simp
  · rw [hhalf, ne_eq, ne_eq, hhalf', hzero, accuracyOfFraction]
    split
    · simp [ExtendedMantissa.ofMantissaAndAccuracy]
      omega
    · rcases Nat.lt_trichotomy (2 * (m % n)) n with h | h | h
      · rw [Nat.compare_eq_lt.2 h]
        simp [ExtendedMantissa.ofMantissaAndAccuracy]
        omega
      · rw [Nat.compare_eq_eq.2 h]
        simp [ExtendedMantissa.ofMantissaAndAccuracy]
        omega
      · rw [Nat.compare_eq_gt.2 h]
        simp [ExtendedMantissa.ofMantissaAndAccuracy]
        omega

theorem mul_finite {s₁ s₂ : Sign} {m₁ m₂ : ℕ} {e₁ e₂ : ℤ} (h₁ : 0 < m₁) (h₂ : 0 < m₂)
    (he : e₁ + e₂ ≤ lastPlace (m₁ * 2 ^ e₁ * (m₂ * 2 ^ e₂))) :
    mul .binary64 (.finite s₁ m₁ e₁ h₁) (.finite s₂ m₂ e₂ h₂) =
      nearest (s₁ * s₂) (m₁ * 2 ^ e₁ * (m₂ * 2 ^ e₂)) := by
  have hpos₁ : (0 : ℚ) < m₁ := by exact_mod_cast h₁
  have hpos₂ : (0 : ℚ) < m₂ := by exact_mod_cast h₂
  refine roundWithAccuracy_eq_nearest (by positivity) ?_ ?_ he
  · have hvalue : (m₁ * 2 ^ e₁ * (m₂ * 2 ^ e₂) : ℚ) / 2 ^ (e₁ + e₂) = ((m₁ * m₂ : ℕ) : ℚ) := by
      rw [zpow_add₀ two_ne_zero]
      push_cast
      field_simp
    rw [hvalue]
    exact brackets_exact _
  · intro h0
    exact absurd h0 (Nat.mul_pos h₁ h₂).ne'

/-- A quotient is at most one bit shorter than the mantissas say. -/
theorem le_log_div {m₁ m₂ : ℕ} (h₁ : 0 < m₁) (h₂ : 0 < m₂) (e₁ e₂ : ℤ) :
    m₁.log2 + e₁ - (m₂.log2 + e₂) - 1 ≤ Int.log 2 (m₁ * 2 ^ e₁ / (m₂ * 2 ^ e₂) : ℚ) := by
  have hpos₁ : (0 : ℚ) < m₁ := by exact_mod_cast h₁
  have hpos₂ : (0 : ℚ) < m₂ := by exact_mod_cast h₂
  have hlog₁ : (2 : ℚ) ^ m₁.log2 ≤ m₁ := by exact_mod_cast Nat.log2_self_le h₁.ne'
  have hlog₂ : (m₂ : ℚ) ≤ 2 ^ (m₂.log2 + 1) := by exact_mod_cast Nat.lt_log2_self.le
  rw [← Int.zpow_le_iff_le_log (b := 2) one_lt_two (by positivity)]
  push_cast
  rw [le_div_iff₀ (by positivity)]
  calc (2 : ℚ) ^ (m₁.log2 + e₁ - (m₂.log2 + e₂) - 1) * (m₂ * 2 ^ e₂)
    _ ≤ 2 ^ (m₁.log2 + e₁ - (m₂.log2 + e₂) - 1) * (2 ^ (m₂.log2 + 1) * 2 ^ e₂) := by gcongr
    _ = 2 ^ m₁.log2 * 2 ^ e₁ := by
      simp only [← zpow_natCast, ← zpow_add₀ (two_ne_zero' ℚ)]
      congr 1
      push_cast
      ring
    _ ≤ m₁ * 2 ^ e₁ := by gcongr

/-- A quotient is zero only if the dividend has fewer bits. -/
theorem lt_log2_of_div_eq_zero {m₁ m₂ n : ℕ} (h₁ : 0 < m₁) (h₂ : 0 < m₂)
    (h : m₁ <<< n / m₂ = 0) : m₁.log2 + n ≤ m₂.log2 := by
  rw [Nat.shiftLeft_eq, Nat.div_eq_zero_iff_lt h₂] at h
  have hlt : 2 ^ (m₁.log2 + n) < 2 ^ (m₂.log2 + 1) := by
    calc 2 ^ (m₁.log2 + n)
      _ = 2 ^ m₁.log2 * 2 ^ n := pow_add ..
      _ ≤ m₁ * 2 ^ n := Nat.mul_le_mul_right _ (Nat.log2_self_le h₁.ne')
      _ < m₂ := h
      _ < 2 ^ (m₂.log2 + 1) := Nat.lt_log2_self
  exact Nat.le_of_lt_succ ((Nat.pow_lt_pow_iff_right one_lt_two).1 hlt)

theorem div_finite {s₁ s₂ : Sign} {m₁ m₂ : ℕ} {e₁ e₂ : ℤ} (h₁ : 0 < m₁) (h₂ : 0 < m₂) :
    div .binary64 (.finite s₁ m₁ e₁ h₁) (.finite s₂ m₂ e₂ h₂) =
      nearest (s₁ / s₂) (m₁ * 2 ^ e₁ / (m₂ * 2 ^ e₂)) := by
  have hpos₁ : (0 : ℚ) < m₁ := by exact_mod_cast h₁
  have hpos₂ : (0 : ℚ) < m₂ := by exact_mod_cast h₂
  have hlog := le_log_div h₁ h₂ e₁ e₂
  simp only [UnpackedFloat.div, divCore, targetExponent_binary64, totalExponent]
  generalize ht : min (e₁ - e₂) _ = t
  refine roundWithAccuracy_eq_nearest (by positivity) ?_ ?_ ?_
  · have hvalue : (m₁ * 2 ^ e₁ / (m₂ * 2 ^ e₂) : ℚ) / 2 ^ t =
        ((m₁ <<< (e₁ - e₂ - t).toNat : ℕ) : ℚ) / m₂ := by
      have hshift : e₁ = e₂ + t + ((e₁ - e₂ - t).toNat : ℤ) := by omega
      rw [Nat.shiftLeft_eq]
      nth_rewrite 1 [hshift]
      rw [zpow_add₀ two_ne_zero, zpow_add₀ two_ne_zero, zpow_natCast]
      push_cast
      field_simp
    rw [hvalue]
    exact brackets_div _ h₂
  · intro h0
    have := lt_log2_of_div_eq_zero h₁ h₂ h0
    omega
  · rw [lastPlace]
    omega

theorem round_eq_nearest (hm : m ≠ 0) : round .binary64 s m e = nearest s (m * 2 ^ e) := by
  have hpos : (0 : ℚ) < m := by exact_mod_cast Nat.pos_of_ne_zero hm
  have hexact : Brackets (.ofMantissaAndAccuracy m .exact) ((m * 2 ^ e : ℚ) / 2 ^ e) := by
    rw [mul_div_cancel_right₀ _ (by positivity)]
    exact brackets_exact m
  have htarget := targetExponent_of_brackets (by positivity) hexact fun h ↦ absurd h hm
  simp only [UnpackedFloat.round, htarget, decreaseExponent]
  refine roundWithAccuracy_eq_nearest (by positivity) ?_ ?_ (by omega)
  · have hvalue : (m * 2 ^ e : ℚ) / 2 ^ (e - ((e - lastPlace (m * 2 ^ e)).toNat : ℤ)) =
        ((m <<< (e - lastPlace (m * 2 ^ e)).toNat : ℕ) : ℚ) := by
      rw [Nat.shiftLeft_eq, zpow_sub₀ two_ne_zero, zpow_natCast]
      push_cast
      field_simp
    rw [hvalue]
    exact brackets_exact _
  · intro h0
    rw [Nat.shiftLeft_eq] at h0
    simp [hm] at h0

theorem settle_of_log2_lt (hm : m.log2 < 53) (he : -1074 ≤ e) :
    settle s m e = if h : m = 0 then .zero s else .finite s m e (Nat.pos_of_ne_zero h) := by
  have htarget : (Format.binary64.targetExponent (totalExponent m e) - e).toNat = 0 := by
    rw [targetExponent_binary64, totalExponent]
    omega
  have hmantissa : (ExtendedMantissa.ofMantissaAndAccuracy m .exact >>> 0).mantissa = m := rfl
  simp only [settle, shiftToTargetExponent, shiftToExponent, htarget, hmantissa, Nat.cast_zero,
    add_zero]

theorem settle_two_pow (he : -1074 ≤ e) :
    settle s (2 ^ 53) e = .finite s (2 ^ 52) (e + 1) (by positivity) := by
  have htarget : (Format.binary64.targetExponent (totalExponent (2 ^ 53) e) - e).toNat = 1 := by
    rw [targetExponent_binary64, totalExponent, Nat.log2_two_pow]
    omega
  have hmantissa : (ExtendedMantissa.ofMantissaAndAccuracy (2 ^ 53) .exact >>> 1).mantissa =
    2 ^ 52 := rfl
  simp only [settle, shiftToTargetExponent, shiftToExponent, htarget, hmantissa, Nat.cast_one]
  rfl

theorem roundEven_natCast (n : ℕ) : roundEven n = n := by
  simp [roundEven]

theorem floor_le_roundEven (x : ℚ) : ⌊x⌋₊ ≤ roundEven x := by
  unfold roundEven
  split_ifs <;> omega

theorem le_roundEven {n : ℕ} (h : (n : ℚ) ≤ x) : n ≤ roundEven x :=
  (Nat.le_floor h).trans (floor_le_roundEven x)

theorem roundEven_le {n : ℕ} (hx : 0 ≤ x) (h : x ≤ n) : roundEven x ≤ n := by
  have hfloor := Nat.floor_le hx
  rcases h.eq_or_lt with rfl | hlt
  · exact (roundEven_natCast n).le
  · have hlt' : ⌊x⌋₊ < n := (Nat.floor_lt hx).2 hlt
    unfold roundEven
    split_ifs <;> omega

theorem roundEven_of_lt_half (h : x < 1 / 2) : roundEven x = 0 := by
  have hfloor : ⌊x⌋₊ = 0 := Nat.floor_eq_zero.2 (by linarith)
  rw [roundEven, hfloor, Nat.cast_zero, sub_zero, if_pos h]

theorem nearest_of_lt (hx : 0 < x) (h : x < 2 ^ (-1075 : ℤ)) : nearest s x = .zero s := by
  have hlog : Int.log 2 x < -1075 :=
    (Int.lt_zpow_iff_log_lt (b := 2) one_lt_two hx).1 (by exact_mod_cast h)
  have hplace : lastPlace x = -1074 := by
    rw [lastPlace]
    omega
  have hround : roundEven (x / 2 ^ (-1074 : ℤ)) = 0 := by
    apply roundEven_of_lt_half
    rw [div_lt_iff₀ (by positivity), one_div, ← zpow_neg_one, ← zpow_add₀ two_ne_zero]
    exact h
  rw [nearest, hplace, hround, settle_of_log2_lt (by decide) le_rfl]
  rfl

theorem roundEven_bounds (hx : 0 < x) (h : -1022 ≤ Int.log 2 x) :
    2 ^ 52 ≤ roundEven (x / 2 ^ lastPlace x) ∧ roundEven (x / 2 ^ lastPlace x) ≤ 2 ^ 53 := by
  have hplace : lastPlace x = Int.log 2 x - 52 := by
    rw [lastPlace]
    omega
  obtain ⟨hle, hlt⟩ := (log_eq_iff hx).1 rfl
  have hpos : (0 : ℚ) < 2 ^ (Int.log 2 x - 52) := by positivity
  rw [hplace]
  constructor
  · apply le_roundEven
    rw [le_div_iff₀ hpos]
    refine le_trans (le_of_eq ?_) hle
    rw [Nat.cast_pow, Nat.cast_ofNat, ← zpow_natCast, ← zpow_add₀ two_ne_zero]
    congr 1
    omega
  · apply roundEven_le (by positivity)
    rw [div_le_iff₀ hpos]
    refine hlt.le.trans (le_of_eq ?_)
    rw [Nat.cast_pow, Nat.cast_ofNat, ← zpow_natCast, ← zpow_add₀ two_ne_zero]
    congr 1
    omega

theorem exists_nearest_of_le (h : (2 : ℚ) ^ 1024 ≤ x) :
    ∃ m e hm, nearest s x = .finite s m e hm ∧ 972 ≤ e := by
  have hx : 0 < x := lt_of_lt_of_le (by positivity) h
  have hlog : 1024 ≤ Int.log 2 x :=
    (Int.zpow_le_iff_le_log (b := 2) one_lt_two hx).1 (by exact_mod_cast h)
  have hplace : 972 ≤ lastPlace x := by
    rw [lastPlace]
    omega
  obtain ⟨hle, hle'⟩ := roundEven_bounds hx (by omega)
  rw [nearest]
  generalize roundEven (x / 2 ^ lastPlace x) = r at hle hle'
  rcases hle'.eq_or_lt with rfl | hlt
  · exact ⟨_, _, _, settle_two_pow (by omega), by omega⟩
  · have hr : r ≠ 0 := by omega
    refine ⟨r, _, Nat.pos_of_ne_zero hr, ?_, hplace⟩
    rw [settle_of_log2_lt ((Nat.log2_lt hr).2 hlt) (by omega), dif_neg hr]

end Formula.Double
