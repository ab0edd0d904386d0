import Formula.X86.Instr

/-!
# Reading instructions

`decode` reads one instruction off the front of some bytes by the rules of the instruction set: the
wide-operand byte, the opcode, the operand byte with its register and mode fields, the index byte of
a memory operand over `rsp`, then a displacement or an immediate, the lowest byte first.
-/

namespace Formula.X86

def ofLittleEndian (bs : List UInt8) : Nat := bs.foldr (fun b n ↦ b.toNat + 256 * n) 0

def Reg.ofCode? : Nat → Option Reg
  | 0 => some rax
  | 4 => some rsp
  | 5 => some rbp
  | _ => none

structure ModRM where
  mode : Nat
  reg : Fin 8
  rm : Fin 8

def ModRM.ofByte (b : UInt8) : ModRM :=
  ⟨b.toNat / 64, lowBits (b.toNat / 8), lowBits b.toNat⟩

def takeByte? : List UInt8 → Option (Int32 × List UInt8)
  | b :: rest => some (b.toInt8.toInt32, rest)
  | [] => none

def takeWord32? : List UInt8 → Option (Int32 × List UInt8)
  | a :: b :: c :: d :: rest => some ((UInt32.ofNat (ofLittleEndian [a, b, c, d])).toInt32, rest)
  | _ => none

def takeWord64? : List UInt8 → Option (UInt64 × List UInt8)
  | a :: b :: c :: d :: e :: f :: g :: h :: rest =>
    some (UInt64.ofNat (ofLittleEndian [a, b, c, d, e, f, g, h]), rest)
  | _ => none

/-- The base register of a memory operand. Over `rsp` an index byte follows, which names no index.
-/
def takeBase? (rm : Fin 8) (bs : List UInt8) : Option (Reg × List UInt8) :=
  match Reg.ofCode? rm, bs with
  | some .rsp, 0x24 :: rest => some (.rsp, rest)
  | some .rsp, _ => none
  | some r, rest => some (r, rest)
  | none, _ => none

/-- A memory operand, of which the operand byte is already read. -/
def takeMem? (m : ModRM) (bs : List UInt8) : Option ((Reg × Int32) × List UInt8) := do
  let (base, bs) ← takeBase? m.rm bs
  match m.mode with
  | 0 => if base = .rbp then none else some ((base, 0), bs)
  | 1 =>
    let (disp, bs) ← takeByte? bs
    some ((base, disp), bs)
  | 2 =>
    let (disp, bs) ← takeWord32? bs
    some ((base, disp), bs)
  | _ => none

/-- What the register field of an operation with immediate tells. -/
def groupInstr? (ext : Fin 8) (dst : Reg) (imm : Int32) : Option Instr :=
  if ext.val = 0 then some (.addImm dst imm)
  else if ext.val = 5 then some (.subImm dst imm)
  else none

def arithOp? (opcode : UInt8) : Option BinOp :=
  [BinOp.add, .sub, .mul, .div].find? fun op ↦ arithOpcode op = opcode

def decodeWide? : List UInt8 → Option (Instr × List UInt8)
  | 0x89 :: b :: rest => do
    let m := ModRM.ofByte b
    guard (m.mode = 3)
    let src ← Reg.ofCode? m.reg
    let dst ← Reg.ofCode? m.rm
    return (.movReg dst src, rest)
  | 0x83 :: b :: rest => do
    let m := ModRM.ofByte b
    guard (m.mode = 3)
    let dst ← Reg.ofCode? m.rm
    let (imm, rest) ← takeByte? rest
    let i ← groupInstr? m.reg dst imm
    return (i, rest)
  | 0x81 :: b :: rest => do
    let m := ModRM.ofByte b
    guard (m.mode = 3)
    let dst ← Reg.ofCode? m.rm
    let (imm, rest) ← takeWord32? rest
    let i ← groupInstr? m.reg dst imm
    return (i, rest)
  | b :: rest => do
    guard (0xb8 ≤ b.toNat)
    let dst ← Reg.ofCode? (b.toNat - 0xb8)
    let (imm, rest) ← takeWord64? rest
    return (.movImm dst imm, rest)
  | [] => none

def decodeMovq? : List UInt8 → Option (Instr × List UInt8)
  | 0x48 :: 0x0f :: opcode :: b :: rest => do
    let m := ModRM.ofByte b
    guard (m.mode = 3)
    let r ← Reg.ofCode? m.rm
    if opcode = 0x6e then return (.movqToXmm m.reg r, rest)
    else if opcode = 0x7e then return (.movqFromXmm r m.reg, rest)
    else none
  | _ => none

def decodeScalar? : List UInt8 → Option (Instr × List UInt8)
  | 0x0f :: opcode :: b :: rest =>
    let m := ModRM.ofByte b
    if opcode = 0x10 then
      if m.mode = 3 then some (.movsd m.reg m.rm, rest)
      else (takeMem? m rest).map fun ((base, disp), rest) ↦ (.movsdLoad m.reg base disp, rest)
    else if opcode = 0x11 then
      (takeMem? m rest).map fun ((base, disp), rest) ↦ (.movsdStore base disp m.reg, rest)
    else if m.mode = 3 then
      (arithOp? opcode).map fun op ↦ (.arith op m.reg m.rm, rest)
    else none
  | _ => none

def decode : List UInt8 → Option (Instr × List UInt8)
  | 0x48 :: rest => decodeWide? rest
  | 0x66 :: rest => decodeMovq? rest
  | 0xf2 :: rest => decodeScalar? rest
  | 0xff :: b :: rest => do
    let m := ModRM.ofByte b
    guard (m.mode = 3 ∧ m.reg.val = 2)
    let r ← Reg.ofCode? m.rm
    return (.call r, rest)
  | 0xc3 :: rest => some (.ret, rest)
  | b :: rest => do
    guard (0x50 ≤ b.toNat)
    if b.toNat < 0x58 then
      let r ← Reg.ofCode? (b.toNat - 0x50)
      return (.push r, rest)
    else
      let r ← Reg.ofCode? (b.toNat - 0x58)
      return (.pop r, rest)
  | [] => none

end Formula.X86
