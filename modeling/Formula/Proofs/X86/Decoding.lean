import Formula.X86.Decode
import Mathlib

/-!
# Reading back what was encoded

Decoding looks at the bytes of one instruction only: in front of any bytes, the bytes of an
instruction are read as that instruction (`decode_encode`). The operand byte, the displacement and
the immediate each have a lemma of their own.
-/

namespace Formula.X86

theorem ofLittleEndian_littleEndian (n count : Nat) :
    ofLittleEndian (littleEndian n count) = n % 256 ^ count := by
  induction count generalizing n with
  | zero => simp [littleEndian, ofLittleEndian, Nat.mod_one]
  | succ count ih =>
      have hstep : ofLittleEndian (littleEndian n (count + 1)) =
          n % 256 + 256 * ofLittleEndian (littleEndian (n / 256) count) := by
        simp [littleEndian, ofLittleEndian]
      rw [hstep, ih, Nat.pow_succ, Nat.mul_comm (256 ^ count), Nat.mod_mul]

theorem takeWord64?_littleEndian (w : UInt64) (rest : List UInt8) :
    takeWord64? (littleEndian w.toNat 8 ++ rest) = some (w, rest) := by
  have h := ofLittleEndian_littleEndian w.toNat 8
  simp only [littleEndian, List.cons_append, List.nil_append, takeWord64?] at h ⊢
  rw [h, Nat.mod_eq_of_lt (show w.toNat < 256 ^ 8 from w.toNat_lt), UInt64.ofNat_toNat]

theorem takeWord32?_littleEndian (i : Int32) (rest : List UInt8) :
    takeWord32? (littleEndian i.toUInt32.toNat 4 ++ rest) = some (i, rest) := by
  have h := ofLittleEndian_littleEndian i.toUInt32.toNat 4
  simp only [littleEndian, List.cons_append, List.nil_append, takeWord32?] at h ⊢
  rw [h, Nat.mod_eq_of_lt (show i.toUInt32.toNat < 256 ^ 4 from i.toUInt32.toNat_lt),
    UInt32.ofNat_toNat]
  rfl

/-- Sign extension restores a value that fits in a signed byte. -/
theorem toInt32_lowByte {i : Int32} (h : fitsByte i = true) :
    (UInt8.ofNat i.toUInt32.toNat).toInt8.toInt32 = i := by
  simp only [fitsByte, Bool.and_eq_true, decide_eq_true_eq] at h
  have hword : (i.toUInt32.toNat : Int) = i.toInt % 4294967296 := by
    have hbits : i.toUInt32.toNat = i.toBitVec.toNat := rfl
    have hlt := i.toBitVec.isLt
    rw [hbits, ← i.toInt_toBitVec, BitVec.toInt_eq_toNat_bmod, Int.bmod]
    omega
  have hbyte : (UInt8.ofNat i.toUInt32.toNat).toBitVec.toNat = i.toUInt32.toNat % 256 :=
    UInt8.toNat_ofNat'
  apply Int32.toInt_inj.1
  rw [Int8.toInt_toInt32]
  change (UInt8.ofNat i.toUInt32.toNat).toBitVec.toInt = i.toInt
  rw [BitVec.toInt_eq_toNat_bmod, hbyte, Int.bmod]
  push_cast
  rw [hword]
  omega

theorem takeByte?_littleEndian {i : Int32} (h : fitsByte i = true) (rest : List UInt8) :
    takeByte? (littleEndian i.toUInt32.toNat 1 ++ rest) = some (i, rest) := by
  simp only [littleEndian, List.cons_append, List.nil_append, takeByte?, toInt32_lowByte h]

theorem ofByte_modRM {mode reg rm : Nat} (hm : mode < 4) (hr : reg < 8) (hb : rm < 8) :
    ModRM.ofByte (modRM mode reg rm) = ⟨mode, ⟨reg, hr⟩, ⟨rm, hb⟩⟩ := by
  have hbyte : (modRM mode reg rm).toNat = 64 * mode + 8 * reg + rm := by
    simp only [modRM, UInt8.toNat_ofNat']
    omega
  simp only [ModRM.ofByte, hbyte, lowBits, Fin.ofNat, ModRM.mk.injEq, Fin.mk.injEq]
  omega

theorem Reg.code_lt (r : Reg) : r.code < 8 := by
  cases r <;> decide

@[simp] theorem Reg.ofCode?_code (r : Reg) : Reg.ofCode? r.code = some r := by
  cases r <;> rfl

theorem takeBase?_code (base : Reg) (rest : List UInt8) :
    takeBase? ⟨base.code, base.code_lt⟩ ((if base = .rsp then [0x24] else []) ++ rest) =
      some (base, rest) := by
  cases base <;> rfl

/-- A memory operand is an operand byte that is not of register mode, followed by what `takeMem?`
reads. -/
theorem exists_memOperand_eq (reg : Xmm) (base : Reg) (disp : Int32) :
    ∃ mode tail, mode < 3 ∧ memOperand reg base disp = modRM mode reg base.code :: tail ∧
      ∀ rest, takeMem? ⟨mode, reg, ⟨base.code, base.code_lt⟩⟩ (tail ++ rest) =
        some ((base, disp), rest) := by
  let index : List UInt8 := if base = .rsp then [0x24] else []
  have hbase : ∀ rest, takeBase? ⟨base.code, base.code_lt⟩ (index ++ rest) = some (base, rest) :=
    takeBase?_code base
  unfold memOperand
  by_cases hzero : disp = 0 ∧ base ≠ .rbp
  · refine ⟨0, index, by decide, if_pos hzero, fun rest ↦ ?_⟩
    simp only [takeMem?, hbase, Option.bind_eq_bind, Option.bind_some]
    rw [if_neg hzero.2, hzero.1]
  · rw [if_neg hzero]
    by_cases hfits : fitsByte disp = true
    · refine ⟨1, index ++ immBytes disp, by decide, if_pos hfits, fun rest ↦ ?_⟩
      have hdisp := takeByte?_littleEndian hfits rest
      simp only [takeMem?, List.append_assoc, hbase, Option.bind_eq_bind, Option.bind_some,
        immBytes, if_pos hfits, hdisp]
    · refine ⟨2, index ++ immBytes disp, by decide, if_neg hfits, fun rest ↦ ?_⟩
      have hdisp := takeWord32?_littleEndian disp rest
      simp only [takeMem?, List.append_assoc, hbase, Option.bind_eq_bind, Option.bind_some,
        immBytes, if_neg hfits, hdisp]

theorem decode_groupImm {ext : Nat} (hext : ext < 8) (dst : Reg) (imm : Int32)
    (rest : List UInt8) :
    decode (groupImm ext dst imm ++ rest) =
      (groupInstr? ⟨ext, hext⟩ dst imm).map fun i ↦ (i, rest) := by
  have hmod := ofByte_modRM (show 3 < 4 by decide) hext dst.code_lt
  by_cases hfits : fitsByte imm = true
  · have himm := takeByte?_littleEndian hfits rest
    simp only [groupImm, immBytes, if_pos hfits, List.cons_append, decode, decodeWide?, hmod,
      Reg.ofCode?_code, himm]
    cases hi : groupInstr? ⟨ext, hext⟩ dst imm <;> simp [hi, guard]
  · have himm := takeWord32?_littleEndian imm rest
    simp only [groupImm, immBytes, if_neg hfits, List.cons_append, decode, decodeWide?, hmod,
      Reg.ofCode?_code, himm]
    cases hi : groupInstr? ⟨ext, hext⟩ dst imm <;> simp [hi, guard]

theorem decode_movImm (dst : Reg) (imm : UInt64) (rest : List UInt8) :
    decode ((Instr.movImm dst imm).encode ++ rest) = some (.movImm dst imm, rest) := by
  have himm := takeWord64?_littleEndian imm rest
  cases dst <;>
    simp [Instr.encode, decode, decodeWide?, Reg.code, Reg.ofCode?, himm, guard]

theorem decode_scalar_reg (dst src : Xmm) (opcode : UInt8) (rest : List UInt8)
    (h : opcode ≠ 0x11) :
    decode (0xf2 :: 0x0f :: opcode :: modRM 3 dst src :: rest) =
      if opcode = 0x10 then some (.movsd dst src, rest)
      else (arithOp? opcode).map fun op ↦ (.arith op dst src, rest) := by
  have hmod := ofByte_modRM (show 3 < 4 by decide) dst.isLt src.isLt
  simp only [decode, decodeScalar?, hmod, if_true, if_neg h]

theorem arithOp?_arithOpcode (op : BinOp) : arithOp? (arithOpcode op) = some op := by
  cases op <;> decide

/-- The bytes of an instruction are read as that instruction, whatever stands behind them. -/
theorem decode_encode (i : Instr) (rest : List UInt8) :
    decode (i.encode ++ rest) = some (i, rest) := by
  cases i with
  | movReg dst src => cases dst <;> cases src <;> rfl
  | movImm dst imm => exact decode_movImm dst imm rest
  | addImm dst imm => exact decode_groupImm (by decide) dst imm rest
  | subImm dst imm => exact decode_groupImm (by decide) dst imm rest
  | push r => cases r <;> rfl
  | pop r => cases r <;> rfl
  | call r => cases r <;> rfl
  | ret => rfl
  | movqToXmm dst src =>
      have hmod := ofByte_modRM (show 3 < 4 by decide) dst.isLt src.code_lt
      simp [Instr.encode, decode, decodeMovq?, hmod, guard]
  | movqFromXmm dst src =>
      have hmod := ofByte_modRM (show 3 < 4 by decide) src.isLt dst.code_lt
      simp [Instr.encode, decode, decodeMovq?, hmod, guard]
  | movsd dst src => exact decode_scalar_reg dst src 0x10 rest (by decide)
  | movsdLoad dst base disp =>
      obtain ⟨mode, tail, hmode, hmem, htake⟩ := exists_memOperand_eq dst base disp
      have hmod := ofByte_modRM (show mode < 4 by omega) dst.isLt base.code_lt
      simp only [Instr.encode, hmem, List.cons_append, decode, decodeScalar?, hmod, htake, if_true]
      rw [if_neg (by omega)]
      rfl
  | movsdStore base disp src =>
      obtain ⟨mode, tail, hmode, hmem, htake⟩ := exists_memOperand_eq src base disp
      have hmod := ofByte_modRM (show mode < 4 by omega) src.isLt base.code_lt
      simp [Instr.encode, hmem, decode, decodeScalar?, hmod, htake]
  | arith op dst src =>
      have hread := decode_scalar_reg dst src (arithOpcode op) rest (by cases op <;> decide)
      rw [if_neg (by cases op <;> decide), arithOp?_arithOpcode] at hread
      exact hread

end Formula.X86
