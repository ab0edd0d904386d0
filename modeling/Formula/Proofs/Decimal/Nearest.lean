import Formula.Proofs.Double.Canonical

/-!
# Decimals are read as the nearest double

Small coefficients and powers of ten are doubles themselves, and one operation on them rounds the
exact result; all others go through the exact quotient or product. Either way the double is the one
nearest to the number that the decimal stands for (`Decimal.toFloat_eq_nearest`), so it does not
depend on how the number is written. The digits that `Decimal.shortest` finds read back as the
double they were found for.
-/

namespace Formula.Decimal

open Float.Model (Format UnpackedFloat totalExponent)
open Float.Model.UnpackedFloat
open Double

/-- The number that a decimal stands for. -/
def value (d : Decimal) : ℚ := d.coefficient * 10 ^ d.exponent

/-- A number that is a double, with a full mantissa. -/
structure IsDouble (x : ℚ) (m : ℕ) (e : ℤ) : Prop where
  canonical : Canonical m e
  full : 2 ^ 52 ≤ m
  eq : x = m * 2 ^ e

theorem exists_isDouble {a b : ℕ} (ha : 0 < a) (ha' : a < 2 ^ 53) (hb : b ≤ 900) :
    ∃ m e, IsDouble (a * 2 ^ b) m e := by
  have hlog : a.log2 < 53 := (Nat.log2_lt ha.ne').2 ha'
  have hle := Nat.log2_self_le ha.ne'
  have hlt : a < 2 ^ (a.log2 + 1) := Nat.lt_log2_self
  have hfull : 2 ^ 52 ≤ a * 2 ^ (52 - a.log2) := by
    calc 2 ^ 52
      _ = 2 ^ a.log2 * 2 ^ (52 - a.log2) := by rw [← pow_add]; congr 1; omega
      _ ≤ a * 2 ^ (52 - a.log2) := Nat.mul_le_mul_right _ hle
  have hshort : a * 2 ^ (52 - a.log2) < 2 ^ 53 := by
    calc a * 2 ^ (52 - a.log2)
      _ < 2 ^ (a.log2 + 1) * 2 ^ (52 - a.log2) := Nat.mul_lt_mul_of_pos_right hlt (by positivity)
      _ = 2 ^ 53 := by rw [← pow_add]; congr 1; omega
  refine ⟨a * 2 ^ (52 - a.log2), b + a.log2 - 52, ⟨by omega, hshort, by omega, by omega,
    .inl hfull⟩, hfull, ?_⟩
  push_cast
  rw [mul_assoc, ← zpow_natCast, ← zpow_natCast, ← zpow_add₀ two_ne_zero]
  congr 2
  omega

theorem encode_nearest_of_le {x : ℚ} (h : (2 : ℚ) ^ 1024 ≤ x) :
    encode (nearest .positive x) = infinity := by
  obtain ⟨m, e, hm, hnearest, he⟩ := exists_nearest_of_le (s := .positive) h
  have hrange : 2 ^ 11 ≤ (e + Format.binary64.exponentBias + (52 : ℕ)).toNat + 1 := by
    change 2 ^ 11 ≤ (e + 1023 + 52).toNat + 1
    omega
  have hpack : pack .binary64 (.finite .positive m e hm) = packedInfinity .binary64 .positive := by
    simp only [pack]
    rw [if_pos hrange]
  have hbits : (encode (.finite .positive m e hm)).toBits = infinity.toBits :=
    UInt64.toBitVec_inj.1 hpack
  rw [hnearest]
  exact Float.toBits_inj.1 hbits

theorem encode_nearest_of_lt {x : ℚ} (hx : 0 < x) (h : x < 2 ^ (-1075 : ℤ)) :
    encode (nearest .positive x) = 0 := by
  rw [nearest_of_lt hx h]
  rfl

theorem ten_zpow (e : ℤ) :
    (10 : ℚ) ^ e = if e < 0 then (10 ^ e.natAbs)⁻¹ else 10 ^ e.natAbs := by
  split
  · next h =>
      have hneg : e = -(e.natAbs : ℤ) := by omega
      nth_rewrite 1 [hneg]
      rw [zpow_neg, zpow_natCast]
  · next h =>
      have hpos : e = (e.natAbs : ℤ) := by omega
      nth_rewrite 1 [hpos]
      rw [zpow_natCast]

/-- The model's own conversion of a decimal, where it does not give up on the exponent. -/
theorem ofScientific_eq_nearest {m : ℕ} {e : ℤ} (hm : m ≠ 0) (he : e ≤ 2048)
    (he' : -(2048 + m.log2) ≤ e) :
    UnpackedFloat.ofScientific .binary64 m e = nearest .positive (m * 10 ^ e) := by
  have hpos : (0 : ℚ) < m := by exact_mod_cast Nat.pos_of_ne_zero hm
  have hlarge : ¬ e > 2 ^ Format.binary64.exponentBits := not_lt.2 he
  have hsmall : ¬ e < -((2 ^ Format.binary64.exponentBits : ℤ) + m.log2) := not_lt.2 he'
  rw [UnpackedFloat.ofScientific, dif_neg hm, if_neg hlarge, if_neg hsmall]
  split
  · next h0 =>
      have hnat : e.toNat = e.natAbs := by omega
      have hten : (10 : ℚ) ^ e = 10 ^ e.toNat := by rw [ten_zpow, if_neg (not_lt.2 h0), hnat]
      have hvalue : ((m <<< 53 : ℕ) * 2 ^ (-53 : ℤ) * ((10 ^ e.toNat : ℕ) * 2 ^ (0 : ℤ)) : ℚ) =
          m * 10 ^ e := by
        rw [Nat.shiftLeft_eq, hten]
        push_cast
        norm_num
        ring
      have hone : (1 : ℚ) ≤ m * 10 ^ e := by
        have hm' : (1 : ℚ) ≤ m := by exact_mod_cast Nat.one_le_iff_ne_zero.2 hm
        rw [hten]
        exact one_le_mul_of_one_le_of_one_le hm' (one_le_pow₀ (by norm_num))
      have hplace : -53 ≤ lastPlace (m * 10 ^ e) := by
        have hlog : 0 ≤ Int.log 2 (m * 10 ^ e : ℚ) := by
          rw [← Int.zpow_le_iff_le_log (b := 2) one_lt_two (by positivity)]
          simpa using hone
        rw [lastPlace]
        omega
      rw [← hvalue] at hplace ⊢
      exact mul_finite _ _ hplace
  · next h0 =>
      have hnat : (-e).toNat = e.natAbs := by omega
      have hten : (10 : ℚ) ^ e = (10 ^ (-e).toNat)⁻¹ := by
        rw [ten_zpow, if_pos (not_le.1 h0), hnat]
      rw [div_finite]
      push_cast
      rw [hten, mul_one, mul_one, div_eq_mul_inv]
      rfl

theorem toFloat_toUInt64 {m : ℕ} (hm : m ≠ 0) (hm' : m < 2 ^ 53) :
    m.toUInt64.toFloat = encode (nearest .positive m) := by
  have htoNat : m.toUInt64.toNat = m := Nat.mod_eq_of_lt (by omega)
  have hcompare : compare (m : ℤ) 0 = .gt := compare_gt_iff_gt.2 (by omega)
  have hround : UnpackedFloat.ofUInt64 .binary64 m.toUInt64 = nearest .positive m := by
    rw [UnpackedFloat.ofUInt64, htoNat, UnpackedFloat.ofNat, UnpackedFloat.ofInt,
      UnpackedFloat.normalize]
    simp only [hcompare, Int.toNat_natCast]
    rw [round_eq_nearest hm, zpow_zero, mul_one]
  exact congrArg encode hround

theorem powersOfTen_eq_round : ∀ e : Fin 23,
    Float.exactlyRepresentablePowersOfTen.getD e 0 =
      encode (UnpackedFloat.round .binary64 .positive (10 ^ e.val) 0) := by
  decide

namespace IsDouble

variable {x y : ℚ} {m n : ℕ} {e f : ℤ}

theorem decode_encode (h : IsDouble x m e) :
    decode (encode (nearest .positive x)) = .finite .positive m e h.canonical.pos := by
  obtain ⟨hcanonical, -, rfl⟩ := h
  rw [nearest_of_canonical hcanonical, decode_encode_finite hcanonical]

theorem encode_mul (hx : IsDouble x m e) (hy : IsDouble y n f) :
    encode (nearest .positive x) * encode (nearest .positive y) =
      encode (nearest .positive (x * y)) := by
  have hplace : e + f ≤ lastPlace (m * 2 ^ e * (n * 2 ^ f)) := by
    have hmn : 2 ^ 52 ≤ m * n := hx.full.trans (Nat.le_mul_of_pos_right m hy.canonical.pos)
    have hlog := (Nat.le_log2 (by omega)).2 hmn
    have hvalue : (m * 2 ^ e * (n * 2 ^ f) : ℚ) = (m * n : ℕ) * 2 ^ (e + f) := by
      rw [zpow_add₀ two_ne_zero]
      push_cast
      ring
    rw [lastPlace, hvalue, log_of_pos (by omega)]
    omega
  have hmul : encode (nearest .positive x) * encode (nearest .positive y) =
      encode (mul .binary64 (decode (encode (nearest .positive x)))
        (decode (encode (nearest .positive y)))) := rfl
  rw [hmul, hx.decode_encode, hy.decode_encode, mul_finite _ _ hplace, ← hx.eq, ← hy.eq]
  rfl

theorem encode_div (hx : IsDouble x m e) (hy : IsDouble y n f) :
    encode (nearest .positive x) / encode (nearest .positive y) =
      encode (nearest .positive (x / y)) := by
  have hdiv : encode (nearest .positive x) / encode (nearest .positive y) =
      encode (div .binary64 (decode (encode (nearest .positive x)))
        (decode (encode (nearest .positive y)))) := rfl
  rw [hdiv, hx.decode_encode, hy.decode_encode, div_finite, ← hx.eq, ← hy.eq]
  rfl

end IsDouble

theorem ofScientific_fast {m e : ℕ} (hm : m ≠ 0) (hm' : m < 2 ^ 53) (he : e ≤ 22) (neg : Bool) :
    Float.ofScientific m neg e =
      encode (nearest .positive (if neg then m / 10 ^ e else m * 10 ^ e)) := by
  have hten : ∀ h : e < Float.exactlyRepresentablePowersOfTen.size,
      Float.exactlyRepresentablePowersOfTen[e] = encode (nearest .positive (10 ^ e)) := by
    intro h
    have hround := powersOfTen_eq_round ⟨e, by omega⟩
    rw [Array.getD_eq_getD_getElem?, Array.getElem?_eq_getElem h, Option.getD_some] at hround
    rw [hround, round_eq_nearest (by positivity)]
    push_cast
    rw [mul_one]
  obtain ⟨c, k, hc⟩ := exists_isDouble (b := 0) (Nat.pos_of_ne_zero hm) hm' (by omega)
  obtain ⟨c', k', hc'⟩ := exists_isDouble (a := 5 ^ e) (b := e) (by positivity)
    ((Nat.pow_le_pow_right (by omega) he).trans_lt (by norm_num)) (by omega)
  rw [pow_zero, mul_one] at hc
  have hten' : ((5 ^ e : ℕ) * 2 ^ e : ℚ) = 10 ^ e := by
    push_cast
    rw [← mul_pow]
    norm_num
  rw [hten'] at hc'
  rw [Float.ofScientific, dif_pos ⟨hm', he⟩]
  simp only [hten, toFloat_toUInt64 hm hm']
  cases neg with
  | true => exact hc.encode_div hc'
  | false => exact hc.encode_mul hc'

/-- The exponents from which a decimal is no longer computed lie beyond the largest double. -/
theorem le_value_of_lt {c : ℕ} {e : ℤ} (hc : c ≠ 0) (he : 400 < e) :
    (2 : ℚ) ^ 1024 ≤ c * 10 ^ e := by
  have hc' : (1 : ℚ) ≤ c := by exact_mod_cast Nat.one_le_iff_ne_zero.2 hc
  calc (2 : ℚ) ^ 1024
    _ ≤ 2 ^ (3 * 401) := pow_le_pow_right₀ one_le_two (by omega)
    _ = (2 ^ 3) ^ 401 := pow_mul ..
    _ ≤ 10 ^ 401 := pow_le_pow_left₀ (by norm_num) (by norm_num) 401
    _ = 10 ^ (401 : ℤ) := (zpow_natCast 10 401).symm
    _ ≤ 10 ^ e := zpow_le_zpow_right₀ (by norm_num) he
    _ ≤ c * 10 ^ e := le_mul_of_one_le_left (by positivity) hc'

/-- The exponents up to which a decimal is not computed lie below half of the smallest double. -/
theorem value_lt_of_lt {c : ℕ} {e : ℤ} (he : e + c.log2 + 400 < 0) :
    (c * 10 ^ e : ℚ) < 2 ^ (-1075 : ℤ) := by
  have hc : (c : ℚ) < 2 ^ (c.log2 + 1) := by exact_mod_cast Nat.lt_log2_self
  obtain ⟨n, rfl⟩ : ∃ n : ℕ, e = -n := ⟨(-e).toNat, by omega⟩
  calc (c * 10 ^ (-n : ℤ) : ℚ)
    _ ≤ c * 8 ^ (-n : ℤ) := by
      rw [zpow_neg, zpow_neg, zpow_natCast, zpow_natCast]
      gcongr
      norm_num
    _ < 2 ^ (c.log2 + 1) * 8 ^ (-n : ℤ) := by gcongr
    _ = 2 ^ (c.log2 + 1 - 3 * n : ℤ) := by
      rw [show (8 : ℚ) = 2 ^ (3 : ℤ) by norm_num, ← zpow_mul, ← zpow_natCast,
        ← zpow_add₀ two_ne_zero]
      congr 1
      push_cast
      ring
    _ ≤ 2 ^ (-1075 : ℤ) := zpow_le_zpow_right₀ one_le_two (by omega)

/-- The number that a decimal stands for determines the double. -/
theorem toFloat_eq_nearest (d : Decimal) (hc : d.coefficient ≠ 0) :
    d.toFloat = encode (nearest .positive d.value) := by
  obtain ⟨c, e⟩ := d
  simp only [value] at hc ⊢
  have hpos : (0 : ℚ) < c := by exact_mod_cast Nat.pos_of_ne_zero hc
  rw [toFloat, if_neg hc]
  simp only
  split
  · next hlarge => rw [encode_nearest_of_le (le_value_of_lt hc hlarge)]
  · next hlarge =>
      split
      · next hsmall => rw [encode_nearest_of_lt (by positivity) (value_lt_of_lt hsmall)]
      · next hsmall =>
          by_cases hfast : c < 2 ^ 53 ∧ e.natAbs ≤ 22
          · rw [ofScientific_fast hc hfast.1 hfast.2, ten_zpow]
            by_cases he : e < 0 <;> simp [he, div_eq_mul_inv]
          · have hexponent : (if decide (e < 0) = true then Int.negOfNat e.natAbs
                else Int.ofNat e.natAbs) = e := by
              simp only [decide_eq_true_eq, Int.negOfNat_eq, Int.ofNat_eq_natCast]
              omega
            rw [Float.ofScientific, dif_neg hfast]
            simp only [hexponent]
            exact congrArg encode (ofScientific_eq_nearest hc (by omega) (by omega))

theorem value_ne_zero_iff (d : Decimal) : d.value ≠ 0 ↔ d.coefficient ≠ 0 := by
  rw [value, mul_ne_zero_iff, Nat.cast_ne_zero]
  exact and_iff_left (by positivity)

theorem toFloat_congr {d d' : Decimal} (hc : d.coefficient ≠ 0) (h : d'.value = d.value) :
    d'.toFloat = d.toFloat := by
  have hc' : d'.coefficient ≠ 0 := by
    rw [← value_ne_zero_iff, h, value_ne_zero_iff]
    exact hc
  rw [toFloat_eq_nearest d hc, toFloat_eq_nearest d' hc', h]

theorem toFloat_stripZeros (n : ℕ) (d : Decimal) : (stripZeros n d).toFloat = d.toFloat := by
  induction n generalizing d with
  | zero => rfl
  | succ n ih =>
      rw [stripZeros]
      split
      · next h =>
          rw [ih]
          apply toFloat_congr h.1
          have hten : (d.coefficient : ℚ) = (d.coefficient / 10 : ℕ) * 10 := by
            exact_mod_cast (Nat.div_mul_cancel (Nat.dvd_of_mod_eq_zero h.2)).symm
          rw [value, value, hten, zpow_add₀ (by norm_num)]
          ring
      · rfl

theorem value_exact {v : Float} {c : ℕ} {q : ℤ} (h : binaryParts v = (c, q)) :
    (exact v).value = c * 2 ^ q := by
  rw [exact, h]
  simp only
  split
  · next hq =>
      obtain ⟨n, rfl⟩ := Int.eq_ofNat_of_zero_le hq
      simp [value]
  · next hq =>
      obtain ⟨n, rfl⟩ : ∃ n : ℕ, q = -n := ⟨(-q).toNat, by omega⟩
      have hten : (10 : ℚ) ^ n = 5 ^ n * 2 ^ n := by
        rw [← mul_pow]
        norm_num
      simp only [value, Int.natAbs_neg, Int.natAbs_natCast, zpow_neg, zpow_natCast, hten,
        Nat.pow_eq]
      push_cast
      field_simp

theorem binaryParts_eq_zero_iff (v : Float) :
    (binaryParts v).1 = 0 ↔ v.toBits.toNat % 0x8000000000000000 = 0 := by
  rw [binaryParts]
  split <;> simp only <;> omega

theorem readsBack_shortest {v : Float} (hv : v.isFinite = true) (tie : Tie) :
    ReadsBack v (shortest tie v) := by
  have hzero := binaryParts_eq_zero_iff v
  rw [ReadsBack, shortest]
  rcases decode_cases hv with ⟨⟨e, hparts⟩, hdecode⟩ | ⟨m, e, h, hparts, hdecode⟩
  · rw [hparts] at hzero
    rw [if_pos (hzero.1 rfl), abs_of_decode_eq hdecode]
    rfl
  · rw [hparts] at hzero
    have hexact : (exact v).toFloat = v.abs := by
      have hvalue := value_exact hparts
      have hne : (exact v).coefficient ≠ 0 := by
        have hm := h.pos
        rw [← value_ne_zero_iff, hvalue]
        positivity
      rw [toFloat_eq_nearest _ hne, hvalue, nearest_of_canonical h, abs_of_decode_eq hdecode]
      rfl
    rw [if_neg (fun h0 ↦ h.pos.ne' (hzero.2 h0))]
    simp only [toFloat_stripZeros]
    cases hfound : (List.range 17).findSome? fun n : ℕ ↦
        onGrid? tie v (leadingPower v - (n : ℤ)) with
    | none => exact hexact
    | some d =>
        obtain ⟨n, -, hn⟩ := List.exists_of_findSome?_eq_some hfound
        exact readsBack_of_onGrid? hn

end Formula.Decimal
