import Formula.X86.Decode
import Std.Data.HashMap

/-!
# Running instructions

A machine has the registers that routines use, memory by bytes, and the list of native calls made so
far. `Machine.run` executes bytes from the first one up to a return. What a called function does to
the machine is a parameter, so that it can be any function that keeps the calling convention.
-/

namespace Formula.X86

/-- Memory by bytes; bytes that were never written are zero. -/
structure Memory where
  cells : Std.HashMap UInt64 UInt8

namespace Memory

def zero : Memory := ⟨∅⟩

def read (m : Memory) (a : UInt64) : UInt8 := m.cells.getD a 0

def write (m : Memory) (a : UInt64) (b : UInt8) : Memory := ⟨m.cells.insert a b⟩

theorem read_write (m : Memory) (a c : UInt64) (b : UInt8) :
    (m.write a b).read c = if a = c then b else m.read c := by
  simp [read, write, Std.HashMap.getD_insert]

def clearBelow (m : Memory) (a : UInt64) : Memory := ⟨m.cells.filter fun c _ ↦ a ≤ c⟩

theorem read_clearBelow (m : Memory) (a c : UInt64) :
    (m.clearBelow a).read c = if a ≤ c then m.read c else 0 := by
  simp only [read, clearBelow, Std.HashMap.getD_eq_getD_getElem?, Std.HashMap.getElem?_filter']
  cases m.cells[c]? with
  | none => simp
  | some b => by_cases h : a ≤ c <;> simp [Option.filter, h]

def writeBytes (m : Memory) (a : UInt64) : List UInt8 → Memory
  | [] => m
  | b :: bs => (m.write a b).writeBytes (a + 1) bs

def readBytes (m : Memory) (a : UInt64) : (count : Nat) → List UInt8
  | 0 => []
  | count + 1 => m.read a :: m.readBytes (a + 1) count

def readWord (m : Memory) (a : UInt64) : UInt64 := UInt64.ofNat (ofLittleEndian (m.readBytes a 8))

def writeWord (m : Memory) (a w : UInt64) : Memory := m.writeBytes a (littleEndian w.toNat 8)

end Memory

structure NativeCall where
  address : UInt64
  argument : UInt64
deriving DecidableEq, Repr

structure Machine where
  rax : UInt64
  rsp : UInt64
  rbp : UInt64
  /-- The low halves of the double registers. -/
  xmm : Vector UInt64 8
  memory : Memory
  /-- The native calls so far, the latest first. -/
  calls : List NativeCall

namespace Machine

inductive Fault where
  | illegalInstruction
  | unknownTarget (address : UInt64)
deriving DecidableEq, Repr

def get (m : Machine) : Reg → UInt64
  | .rax => m.rax
  | .rsp => m.rsp
  | .rbp => m.rbp

def set (m : Machine) (r : Reg) (w : UInt64) : Machine :=
  match r with
  | .rax => { m with rax := w }
  | .rsp => { m with rsp := w }
  | .rbp => { m with rbp := w }

def getXmm (m : Machine) (r : Xmm) : UInt64 := m.xmm.get r

def setXmm (m : Machine) (r : Xmm) (w : UInt64) : Machine := { m with xmm := r.update m.xmm w }

def store : Machine → (a w : UInt64) → Machine
  | ⟨rax, rsp, rbp, xmm, memory, calls⟩, a, w => ⟨rax, rsp, rbp, xmm, memory.writeWord a w, calls⟩

def effective (m : Machine) (base : Reg) (disp : Int32) : UInt64 :=
  m.get base + disp.toInt64.toUInt64

def arith (op : BinOp) (a b : UInt64) : UInt64 :=
  (op.apply ⟨a⟩ ⟨b⟩).bits

def exec (m : Machine) : Instr → Machine
  | .movReg dst src => m.set dst (m.get src)
  | .movImm dst imm => m.set dst imm
  | .addImm dst imm => m.set dst (m.get dst + imm.toInt64.toUInt64)
  | .subImm dst imm => m.set dst (m.get dst - imm.toInt64.toUInt64)
  | .push r =>
    let w := m.get r
    let top := m.rsp - 8
    (m.set .rsp top).store top w
  | .pop r =>
    let w := m.memory.readWord m.rsp
    (m.set .rsp (m.rsp + 8)).set r w
  | .movqToXmm dst src => m.setXmm dst (m.get src)
  | .movqFromXmm dst src => m.set dst (m.getXmm src)
  | .movsd dst src => m.setXmm dst (m.getXmm src)
  | .movsdLoad dst base disp => m.setXmm dst (m.memory.readWord (m.effective base disp))
  | .movsdStore base disp src =>
    m.store (m.effective base disp) (m.getXmm src)
  | .arith op dst src => m.setXmm dst (arith op (m.getXmm dst) (m.getXmm src))
  | .call _ | .ret => m

/-- What a call of an address does to a machine, if there is a function at the address. -/
abbrev CallModel := UInt64 → Machine → Option Machine

def callAt (model : CallModel) (m : Machine) (address : UInt64) : Except Fault Machine :=
  let made : NativeCall := ⟨address, m.getXmm xmm0⟩
  match model address m with
  | some m' => .ok { m' with calls := made :: m.calls }
  | none => .error (.unknownTarget address)

def runSteps (model : CallModel) : (steps : Nat) → List UInt8 → Machine → Except Fault Machine
  | 0, _, _ => .error .illegalInstruction
  | steps + 1, code, m =>
    match decode code with
    | none => .error .illegalInstruction
    | some (.ret, _) => .ok m
    | some (.call r, rest) =>
      match m.callAt model (m.get r) with
      | .error e => .error e
      | .ok m' => runSteps model steps rest m'
    | some (i, rest) => runSteps model steps rest (m.exec i)

/-- Executes code up to a return. An instruction has at least one byte, so as many steps as there
are bytes are enough. -/
def run (model : CallModel) (code : List UInt8) (m : Machine) : Except Fault Machine :=
  runSteps model code.length code m

def junk : UInt64 := 0xcccccccccccccccc

/-- Calls of functions that leave their value in the first double register and keep only what a call
must keep: there is junk in the other registers, and what was below the stack pointer is gone. -/
def callNative (natives : UInt64 → Option (Double → Double)) : CallModel := fun address m ↦
  (natives address).map fun f ↦
    { m with
      rax := junk
      xmm := #v[(f ⟨m.getXmm xmm0⟩).bits, junk, junk, junk, junk, junk, junk, junk]
      memory := m.memory.clearBelow m.rsp }

/-- The machine on entry: the arguments in the first two double registers, and the stack at the end
of memory, as a call leaves it, eight bytes below a multiple of sixteen. -/
def entry (x y : Double) : Machine where
  rax := 0
  rsp := 0xfffffffffffffff8
  rbp := 0
  xmm := #v[x.bits, y.bits, 0, 0, 0, 0, 0, 0]
  memory := .zero
  calls := []

end Machine

end Formula.X86
