/-!
# Switches

What a compilation does beyond translating: park values in registers, order operands by the depth of
their calls, fold constants.
-/

namespace Formula

structure Switches where
  useRegisters : Bool := true
  useCallDepth : Bool := true
  useConstFolding : Bool := true
deriving DecidableEq, Repr

def Switches.unoptimized : Switches := ⟨false, false, false⟩

end Formula
