/-!
# Executable memory

A block of memory is a whole number of pages. It can be written until it is made executable and
never after, and every byte that was not written is zero.
-/

namespace Formula

inductive MemoryError where
  | allocationFailed
  | protectionFailed
  | invalidSize
  | unsupported
  /-- Rounding the size up to whole pages leaves the range of sizes. -/
  | sizeOverflow
deriving DecidableEq, Repr

def MemoryError.message : MemoryError → String
  | allocationFailed => "memory allocation failed"
  | protectionFailed => "memory protection change failed"
  | invalidSize => "invalid memory size"
  | unsupported => "executable memory is not supported on this host"
  | sizeOverflow => "attempt to add with overflow"

structure Block where
  size : Nat
  executable : Bool
  contents : Nat → UInt8

namespace Block

def pageSize : Nat := 4096

def sizeLimit : Nat := 0x10000000000000000

/-- No block is as large as this. -/
def allocationLimit : Nat := 0x8000000000000000

/-- The least multiple of the page size that is not below `size`. -/
def roundUp (size : Nat) : Nat := (size + pageSize - 1) / pageSize * pageSize

def new (size : Nat) : Except MemoryError Block :=
  if size = 0 then .error .invalidSize
  else if sizeLimit ≤ size + pageSize then .error .sizeOverflow
  else if allocationLimit ≤ roundUp size then .error .allocationFailed
  else .ok ⟨roundUp size, false, fun _ ↦ 0⟩

def write (b : Block) (offset : Nat) (data : Array UInt8) : Except MemoryError Block :=
  if b.executable then .error .protectionFailed
  else if b.size < offset + data.size then .error .invalidSize
  else
    .ok { b with
      contents := fun i ↦
        if offset ≤ i ∧ i < offset + data.size then data.getD (i - offset) 0 else b.contents i }

/-- Makes a block executable, and no longer writable. -/
def makeExecutable (b : Block) : Block := { b with executable := true }

def bytes (b : Block) (offset count : Nat) : List UInt8 :=
  (List.range count).map fun i ↦ b.contents (offset + i)

def ofCode (code : Array UInt8) : Except MemoryError Block := do
  let b ← new code.size
  let b ← b.write 0 code
  return b.makeExecutable

end Block

end Formula
