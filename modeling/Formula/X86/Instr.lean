import Formula.Basic

/-!
# Instructions

The x86-64 instructions that a straight-line routine on doubles needs, and their bytes. Immediates
and displacements that fit in a signed byte take one byte. A memory operand over `rsp` has an index
byte, and one over `rbp` always has a displacement.
-/

namespace Formula.X86

inductive Reg where
  | rax
  | rsp
  | rbp
deriving DecidableEq, Repr

def Reg.code : Reg → Nat
  | rax => 0
  | rsp => 4
  | rbp => 5

def lowBits (n : Nat) : Fin 8 := Fin.ofNat 8 n

/-- The registers for doubles that need no further bits in an encoding. -/
abbrev Xmm := Fin 8

def Xmm.ofNat (n : Nat) : Xmm := lowBits n

def Xmm.update {α : Type} (kept : Vector α 8) (r : Xmm) (a : α) : Vector α 8 :=
  kept.set r.val a r.isLt

/-- Holds the first argument of a function, and its result. -/
def xmm0 : Xmm := Xmm.ofNat 0

/-- Holds the second argument of a function. -/
def xmm1 : Xmm := Xmm.ofNat 1

inductive Instr where
  | movReg (dst src : Reg)
  | movImm (dst : Reg) (imm : UInt64)
  | addImm (dst : Reg) (imm : Int32)
  | subImm (dst : Reg) (imm : Int32)
  | push (r : Reg)
  | pop (r : Reg)
  | call (r : Reg)
  | ret
  | movqToXmm (dst : Xmm) (src : Reg)
  | movqFromXmm (dst : Reg) (src : Xmm)
  | movsd (dst src : Xmm)
  | movsdLoad (dst : Xmm) (base : Reg) (disp : Int32)
  | movsdStore (base : Reg) (disp : Int32) (src : Xmm)
  | arith (op : BinOp) (dst src : Xmm)
deriving DecidableEq, Repr

/-- The lowest `count` bytes of a number, the lowest first. -/
def littleEndian (n : Nat) : (count : Nat) → List UInt8
  | 0 => []
  | count + 1 => UInt8.ofNat n :: littleEndian (n / 256) count

def modRM (mode reg rm : Nat) : UInt8 := UInt8.ofNat (64 * mode + 8 * reg + rm)

def fitsByte (i : Int32) : Bool := -128 ≤ i.toInt && i.toInt ≤ 127

def immBytes (i : Int32) : List UInt8 :=
  if fitsByte i then littleEndian i.toUInt32.toNat 1 else littleEndian i.toUInt32.toNat 4

/-- The operand at `base + disp`, with `reg` in the register field. -/
def memOperand (reg : Nat) (base : Reg) (disp : Int32) : List UInt8 :=
  let index : List UInt8 := if base = .rsp then [0x24] else []
  if disp = 0 ∧ base ≠ .rbp then modRM 0 reg base.code :: index
  else if fitsByte disp then modRM 1 reg base.code :: index ++ immBytes disp
  else modRM 2 reg base.code :: index ++ immBytes disp

/-- An operation of a register and an immediate; `ext` tells which. -/
def groupImm (ext : Nat) (dst : Reg) (imm : Int32) : List UInt8 :=
  0x48 :: (if fitsByte imm then 0x83 else 0x81) :: modRM 3 ext dst.code :: immBytes imm

def arithOpcode : BinOp → UInt8
  | .add => 0x58
  | .sub => 0x5c
  | .mul => 0x59
  | .div => 0x5e

def Instr.encode : Instr → List UInt8
  | movReg dst src => [0x48, 0x89, modRM 3 src.code dst.code]
  | movImm dst imm => 0x48 :: UInt8.ofNat (0xb8 + dst.code) :: littleEndian imm.toNat 8
  | addImm dst imm => groupImm 0 dst imm
  | subImm dst imm => groupImm 5 dst imm
  | push r => [UInt8.ofNat (0x50 + r.code)]
  | pop r => [UInt8.ofNat (0x58 + r.code)]
  | call r => [0xff, modRM 3 2 r.code]
  | ret => [0xc3]
  | movqToXmm dst src => [0x66, 0x48, 0x0f, 0x6e, modRM 3 dst src.code]
  | movqFromXmm dst src => [0x66, 0x48, 0x0f, 0x7e, modRM 3 src dst.code]
  | movsd dst src => [0xf2, 0x0f, 0x10, modRM 3 dst src]
  | movsdLoad dst base disp => 0xf2 :: 0x0f :: 0x10 :: memOperand dst base disp
  | movsdStore base disp src => 0xf2 :: 0x0f :: 0x11 :: memOperand src base disp
  | arith op dst src => [0xf2, 0x0f, arithOpcode op, modRM 3 dst src]

def encodeAll (is : List Instr) : List UInt8 := is.flatMap Instr.encode

@[simp] theorem encodeAll_nil : encodeAll [] = [] := rfl

@[simp] theorem encodeAll_cons (i : Instr) (is : List Instr) :
    encodeAll (i :: is) = i.encode ++ encodeAll is := rfl

@[simp] theorem encodeAll_append (is js : List Instr) :
    encodeAll (is ++ js) = encodeAll is ++ encodeAll js := by
  simp [encodeAll]

@[simp] theorem length_littleEndian (n count : Nat) : (littleEndian n count).length = count := by
  induction count generalizing n with
  | zero => rfl
  | succ count ih => simp [littleEndian, ih]

end Formula.X86
