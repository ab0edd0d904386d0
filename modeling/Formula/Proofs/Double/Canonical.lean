import Formula.Decimal.Layout
import Formula.Proofs.Double.Rounding

/-!
# The parts of a double

A double that is neither infinite nor no number is a zero or has a mantissa and an exponent in
`Canonical` form. Such parts survive the way into the bits and back (`decode_encode_finite`), and
they are what `nearest` gives for the number they stand for (`nearest_of_canonical`). A word is
given back by the number that it holds (`ofFloat_toFloat`), and by its sign and magnitude.
-/

namespace Formula.Double

open Float.Model (Format UnpackedFloat totalExponent)
open Float.Model.UnpackedFloat

def decode (v : Float) : UnpackedFloat := v.toModel.unpack

def encode (u : UnpackedFloat) : Float := .ofModel (.pack u)

theorem encode_decode (v : Float) : encode (decode v) = v := v.ofBits_toBits

/-- The mantissa fills its bits, or the exponent is the smallest one. -/
structure Canonical (m : ℕ) (e : ℤ) : Prop where
  pos : 0 < m
  lt : m < 2 ^ 53
  min_le : -1074 ≤ e
  le_max : e ≤ 971
  full : 2 ^ 52 ≤ m ∨ e = -1074

variable {s : Sign} {m : ℕ} {e : ℤ}

theorem log_of_pos (hm : 0 < m) : Int.log 2 (m * 2 ^ e : ℚ) = m.log2 + e := by
  have hpos : (0 : ℚ) < m := by exact_mod_cast hm
  have hexact : Brackets (.ofMantissaAndAccuracy m .exact) ((m * 2 ^ e : ℚ) / 2 ^ e) := by
    rw [mul_div_cancel_right₀ _ (by positivity)]
    exact brackets_exact m
  exact log_of_brackets (by positivity) hm.ne' hexact

theorem nearest_of_canonical (h : Canonical m e) : nearest s (m * 2 ^ e) = .finite s m e h.pos := by
  have hlog : m.log2 < 53 := (Nat.log2_lt h.pos.ne').2 h.lt
  have hplace : lastPlace (m * 2 ^ e) = e := by
    rw [lastPlace, log_of_pos h.pos]
    rcases h.full with hm | he
    · have := (Nat.le_log2 h.pos.ne').2 hm
      have := h.min_le
      omega
    · omega
  rw [nearest, hplace, mul_div_cancel_right₀ _ (by positivity), roundEven_natCast,
    settle_of_log2_lt hlog h.min_le, dif_neg h.pos.ne']

theorem decode_encode_zero (s : Sign) : decode (encode (.zero s)) = .zero s := by
  cases s <;> rfl

theorem pack_of_full (h : Canonical m e) (hm : 2 ^ 52 ≤ m) :
    pack .binary64 (.finite s m e h.pos) =
      packComponents .binary64 s (BitVec.ofNat 11 (e + 1075).toNat) (BitVec.ofNat 52 m) := by
  have hmax := h.le_max
  have hlog : m.log2 = 52 := (Nat.log2_eq_iff h.pos.ne').2 ⟨hm, h.lt⟩
  have hexponent : (e + Format.binary64.exponentBias + (52 : ℕ)).toNat = (e + 1075).toNat := by
    change (e + 1023 + 52).toNat = _
    omega
  have hrange : ¬ 2 ^ 11 ≤ (e + 1075).toNat + 1 := by omega
  simp only [pack, hlog, hexponent]
  rw [if_neg hrange]
  rfl

theorem pack_of_not_full (h : Canonical m e) (hm : m < 2 ^ 52) :
    pack .binary64 (.finite s m e h.pos) = packComponents .binary64 s 0#11 (BitVec.ofNat 52 m) := by
  have he : e = -1074 := h.full.resolve_left (by omega)
  have hlog : m.log2 < 52 := (Nat.log2_lt h.pos.ne').2 hm
  subst he
  simp only [pack]
  rw [if_neg (by decide), if_neg (by change m.log2 + 1 ≠ 53; omega)]

theorem unpack_of_normal {ev : BitVec 11} {mv : BitVec 52} (h0 : ev.toNat ≠ 0)
    (h1 : ev.toNat ≠ 2047) :
    unpack .binary64 (packComponents .binary64 s ev mv) =
      .finite s (2 ^ 52 + mv.toNat) (ev.toNat - 1075) (by positivity) := by
  have hmantissa : (1#1 ++ mv).toNat = 2 ^ 52 + mv.toNat := by
    rw [BitVec.toNat_append]
    exact (Nat.two_pow_add_eq_or_of_lt mv.isLt 1).symm
  simp only [unpack, unpackMantissa_packComponents, unpackExponent_packComponents,
    unpackSign_packComponents, Sign.ofBitVec_toBitVec]
  rw [if_neg (fun h ↦ h1 (congrArg BitVec.toNat h)), if_neg (fun h ↦ h0 (congrArg BitVec.toNat h))]
  simp only [hmantissa]
  rfl

theorem unpack_of_subnormal {mv : BitVec 52} (h : 0 < mv.toNat) :
    unpack .binary64 (packComponents .binary64 s 0#11 mv) = .finite s mv.toNat (-1074) h := by
  have hne : mv ≠ 0#52 := fun h0 ↦ h.ne' (congrArg BitVec.toNat h0)
  simp only [unpack, unpackMantissa_packComponents, unpackExponent_packComponents,
    unpackSign_packComponents, Sign.ofBitVec_toBitVec]
  rw [if_neg (by decide), if_pos trivial, dif_neg hne]
  rfl

theorem decode_encode_finite (h : Canonical m e) :
    decode (encode (.finite s m e h.pos)) = .finite s m e h.pos := by
  change unpack .binary64 (pack .binary64 (.finite s m e h.pos)) = _
  have hmin := h.min_le
  have hmax := h.le_max
  have hlt := h.lt
  have hpos := h.pos
  by_cases hm : 2 ^ 52 ≤ m
  · have hev : (BitVec.ofNat 11 (e + 1075).toNat).toNat = (e + 1075).toNat := by
      rw [BitVec.toNat_ofNat]
      omega
    have hmv : (BitVec.ofNat 52 m).toNat = m - 2 ^ 52 := by
      rw [BitVec.toNat_ofNat]
      omega
    rw [pack_of_full h hm, unpack_of_normal (by omega) (by omega)]
    congr 1
    · omega
    · omega
  · have hmv : (BitVec.ofNat 52 m).toNat = m := by
      rw [BitVec.toNat_ofNat]
      omega
    rw [pack_of_not_full h (not_le.1 hm), unpack_of_subnormal (by omega)]
    congr 1
    exact (h.full.resolve_left hm).symm

def signOf (v : Float) : Sign := if Decimal.isNegative v then .negative else .positive

def bitsOf (v : Float) : BitVec Format.binary64.numBits := v.toModel.toBits.toBitVec

section Bits

variable (v : Float)

theorem toNat_unpackMantissa :
    (unpackMantissa (bitsOf v)).toNat = v.toBits.toNat % 0x10000000000000 := by
  rw [unpackMantissa_def, BitVec.extractLsb'_toNat]
  rfl

theorem toNat_unpackExponent :
    (unpackExponent (bitsOf v)).toNat = v.toBits.toNat / 0x10000000000000 % 0x800 := by
  rw [unpackExponent_def, BitVec.extractLsb'_toNat, Nat.shiftRight_eq_div_pow]
  rfl

theorem toNat_unpackSign :
    (unpackSign (bitsOf v)).toNat = v.toBits.toNat / 0x8000000000000000 % 2 := by
  rw [unpackSign_def, BitVec.extractLsb'_toNat, Nat.shiftRight_eq_div_pow]
  rfl

theorem ofBitVec_unpackSign : Sign.ofBitVec (unpackSign (bitsOf v)) = signOf v := by
  have hlt : v.toBits.toNat < 2 ^ 64 := v.toBits.toBitVec.isLt
  have hsign := toNat_unpackSign v
  rw [signOf, Decimal.isNegative, Sign.ofBitVec]
  by_cases h : v.toBits.toNat / 0x8000000000000000 = 1
  · have hne : unpackSign (bitsOf v) ≠ 0#1 := by
      intro h0
      rw [h0, h] at hsign
      cases hsign
    simp [h, hne]
  · have h0 : unpackSign (bitsOf v) = 0#1 := by
      apply BitVec.eq_of_toNat_eq
      rw [hsign]
      change _ = 0
      omega
    simp [h, h0]

theorem decode_eq_unpack : decode v = unpack .binary64
    (packComponents .binary64 (signOf v) (unpackExponent (bitsOf v))
      (unpackMantissa (bitsOf v))) := by
  rw [← ofBitVec_unpackSign, packComponents_unpackSign_unpackExponent_unpackMantissa]
  rfl

end Bits

theorem decode_cases {v : Float} (hv : v.isFinite = true) :
    (∃ e, Decimal.binaryParts v = (0, e)) ∧ decode v = .zero (signOf v) ∨
      ∃ m e, ∃ h : Canonical m e, Decimal.binaryParts v = (m, e) ∧
        decode v = .finite (signOf v) m e h.pos := by
  have hfinite : (decode v).isFinite = true := hv
  have hparts : Decimal.binaryParts v =
      if (unpackExponent (bitsOf v)).toNat = 0 then ((unpackMantissa (bitsOf v)).toNat, -1074)
      else ((unpackMantissa (bitsOf v)).toNat + 2 ^ 52,
        ((unpackExponent (bitsOf v)).toNat : ℤ) - 1075) := by
    rw [toNat_unpackExponent, toNat_unpackMantissa]
    rfl
  rw [decode_eq_unpack] at hfinite ⊢
  generalize unpackExponent (bitsOf v) = ev at hparts hfinite ⊢
  generalize unpackMantissa (bitsOf v) = mv at hparts hfinite ⊢
  have hmlt : mv.toNat < 2 ^ 52 := mv.isLt
  have helt : ev.toNat < 2 ^ 11 := ev.isLt
  by_cases h0 : ev.toNat = 0
  · rw [if_pos h0] at hparts
    have hev : ev = 0#11 := BitVec.eq_of_toNat_eq h0
    subst hev
    by_cases hm : mv.toNat = 0
    · have hmv : mv = 0#52 := BitVec.eq_of_toNat_eq hm
      subst hmv
      exact .inl ⟨⟨_, hparts⟩, unpack_packedZero⟩
    · have hpos := Nat.pos_of_ne_zero hm
      exact .inr ⟨_, _, ⟨hpos, by omega, by omega, by omega, .inr rfl⟩, hparts,
        unpack_of_subnormal hpos⟩
  · rw [if_neg h0] at hparts
    have h1 : ev.toNat ≠ 2047 := by
      intro h1
      have hev : ev = -1#11 := BitVec.eq_of_toNat_eq h1
      subst hev
      simp only [unpack, unpackExponent_packComponents] at hfinite
      rw [if_pos trivial] at hfinite
      split at hfinite <;> cases hfinite
    refine .inr ⟨_, _, ⟨by omega, by omega, by omega, by omega, .inl (by omega)⟩, hparts, ?_⟩
    rw [unpack_of_normal h0 h1]
    congr 1
    exact add_comm _ _

theorem isFinite_iff (v : Float) : v.isFinite = true ↔ v.isNaN = false ∧ v.isInf = false := by
  change (decode v).isFinite = true ↔ (decode v).isNaN = false ∧ (decode v).isInf = false
  cases decode v <;> simp [UnpackedFloat.isFinite, UnpackedFloat.isNaN, UnpackedFloat.isInf]

theorem encode_of_decode_eq {v : Float} {u : UnpackedFloat} (h : decode v = u) : encode u = v := by
  rw [← h, encode_decode]

theorem abs_of_decode_eq {v : Float} {u : UnpackedFloat} (h : decode v = u) :
    v.abs = encode u.abs := by
  rw [← h]
  rfl

theorem neg_encode {u : UnpackedFloat} (h : decode (encode u) = u) : -encode u = encode u.neg := by
  change encode (decode (encode u)).neg = _
  rw [h]

/-- The sign and the magnitude make up the double. -/
theorem signed_abs {v : Float} (hv : v.isFinite = true) :
    (if Decimal.isNegative v then -v.abs else v.abs) = v := by
  rcases decode_cases hv with ⟨-, hzero⟩ | ⟨m, e, h, -, hfinite⟩
  · rw [abs_of_decode_eq hzero, UnpackedFloat.abs, neg_encode (decode_encode_zero .positive)]
    refine Eq.trans ?_ (encode_of_decode_eq hzero)
    rw [signOf]
    split <;> rfl
  · rw [abs_of_decode_eq hfinite, UnpackedFloat.abs, neg_encode (decode_encode_finite h)]
    refine Eq.trans ?_ (encode_of_decode_eq hfinite)
    rw [signOf]
    split <;> rfl

section Words

variable {v w : Double}

def word (v : Double) : BitVec Format.binary64.numBits := v.bits.toBitVec

@[simp] theorem toFloat_ofFloat (v : Float) : (ofFloat v).toFloat = v := v.ofBits_toBits

theorem unpack_of_isNaNBits {b : BitVec Format.binary64.numBits} (h : isNaNBits b = true) :
    unpack .binary64 b = .notANumber := by
  rw [isNaNBits, decide_eq_true_eq] at h
  simp only [unpack]
  rw [if_pos h.1, if_neg h.2]

theorem decode_toFloat (v : Double) : decode v.toFloat = unpack .binary64 (word v) := by
  change unpack .binary64 (pack .binary64 (unpack .binary64 (word v))) = _
  rw [pack_unpack]
  split
  · next h => rw [unpack_of_isNaNBits h, unpack_of_isNaNBits (by decide)]
  · rfl

theorem ofFloat_toFloat (h : v.toFloat.isNaN = false) : ofFloat v.toFloat = v := by
  have hbits : isNaNBits (word v) = false := by
    rw [Bool.eq_false_iff]
    intro hnan
    have hisNaN : (decode v.toFloat).isNaN = false := h
    rw [decode_toFloat, unpack_of_isNaNBits hnan] at hisNaN
    cases hisNaN
  have hpack : pack .binary64 (unpack .binary64 (word v)) = word v := by
    rw [pack_unpack, hbits, if_neg Bool.false_ne_true]
  exact congrArg (fun b ↦ Double.mk ⟨b⟩) hpack

/-- A number is held by one word only. -/
theorem eq_of_toFloat_eq (h : v.toFloat = w.toFloat) (hw : w.toFloat.isNaN = false) : v = w := by
  rw [← ofFloat_toFloat hw, ← h, ofFloat_toFloat (h ▸ hw)]

/-- The sign bit is the sign of what the word holds. -/
theorem unpack_word_neg (v : Double) :
    unpack .binary64 (word (-v)) = (unpack .binary64 (word v)).neg := by
  have hword : word (-v) = word v ^^^ 0x8000000000000000#64 := rfl
  have hflip : ∀ b : BitVec 1, Sign.ofBitVec (b ^^^ 1#1) = -Sign.ofBitVec b := by
    intro b
    rcases BitVec.eq_zero_or_eq_one b with rfl | rfl <;> rfl
  have hmantissa : unpackMantissa (word (-v)) = unpackMantissa (word v) := by
    rw [unpackMantissa_def, unpackMantissa_def, hword, BitVec.extractLsb'_xor]
    exact BitVec.xor_zero
  have hexponent : unpackExponent (word (-v)) = unpackExponent (word v) := by
    rw [unpackExponent_def, unpackExponent_def, hword, BitVec.extractLsb'_xor]
    exact BitVec.xor_zero
  have hsign : Sign.ofBitVec (unpackSign (word (-v))) = -Sign.ofBitVec (unpackSign (word v)) := by
    rw [unpackSign_def, unpackSign_def, hword, BitVec.extractLsb'_xor]
    exact hflip _
  simp only [unpack, hmantissa, hexponent, hsign]
  split
  · split <;> rfl
  · split
    · split <;> rfl
    · rfl

theorem toFloat_neg (v : Double) : (-v).toFloat = -v.toFloat := by
  have hneg : -v.toFloat = encode (decode v.toFloat).neg := rfl
  rw [hneg, decode_toFloat, ← unpack_word_neg]
  rfl

/-- The sign and the magnitude make up the word. -/
theorem signed_ofFloat_abs (hv : v.toFloat.isFinite = true) :
    (if Decimal.isNegative v then -ofFloat v.toFloat.abs else ofFloat v.toFloat.abs) = v := by
  have hnan := ((isFinite_iff v.toFloat).1 hv).1
  have hsigned := signed_abs hv
  apply eq_of_toFloat_eq _ hnan
  split
  · next h => rwa [if_pos h, ← toFloat_ofFloat v.toFloat.abs, ← toFloat_neg] at hsigned
  · next h => rwa [if_neg h, ← toFloat_ofFloat v.toFloat.abs] at hsigned

end Words

end Formula.Double
