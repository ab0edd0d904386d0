import Formula.Block
import Formula.X86.Instr

/-!
# Code buffers

Bytes that only grow at the end, and that become an executable block when they are complete.
-/

namespace Formula.Code

structure Buffer where
  code : Array UInt8

namespace Buffer

def empty : Buffer := ⟨#[]⟩

def size (b : Buffer) : Nat := b.code.size

def emitBytes (b : Buffer) (bytes : List UInt8) : Buffer := ⟨b.code.appendList bytes⟩

def emitByte (b : Buffer) (w : UInt8) : Buffer := b.emitBytes [w]

def emitWord32 (b : Buffer) (w : UInt32) : Buffer := b.emitBytes (X86.littleEndian w.toNat 4)

def emitWord64 (b : Buffer) (w : UInt64) : Buffer := b.emitBytes (X86.littleEndian w.toNat 8)

def emitInstr (b : Buffer) (i : X86.Instr) : Buffer := b.emitBytes i.encode

def finalize (b : Buffer) : Except MemoryError Block := Block.ofCode b.code

end Buffer

end Formula.Code
