/-!
# Doubles by their bits

A double is the word that holds it, so two words for what is not a number are two doubles. Numbers
are computed with as `Float`s. An operation hands on the first operand that is no number, made
quiet; where the operands are numbers and the result is none, it is `indefinite`.
-/

namespace Formula

structure Double where
  bits : UInt64
deriving DecidableEq, Repr

namespace Double

def ofFloat (v : Float) : Double := ⟨v.toBits⟩

def toFloat (v : Double) : Float := Float.ofBits v.bits

instance : Coe Float Double := ⟨ofFloat⟩

instance : Coe Double Float := ⟨toFloat⟩

instance (n : Nat) : OfNat Double n := ⟨ofFloat (.ofNat n)⟩

/-- All exponent bits are set, and some bit behind them. -/
def isNaN (v : Double) : Bool := 0x7ff0000000000000 < v.bits &&& 0x7fffffffffffffff

/-- Sets the bit that tells a quiet pattern from a signalling one. -/
def quiet (v : Double) : Double := ⟨v.bits ||| 0x0008000000000000⟩

/-- The result of an invalid operation on numbers. -/
def indefinite : Double := ⟨0xfff8000000000000⟩

def ofResult (v : Float) : Double := if v.isNaN then indefinite else ofFloat v

def map (f : Float → Float) (a : Double) : Double := if a.isNaN then a.quiet else ofResult (f a)

def map₂ (f : Float → Float → Float) (a b : Double) : Double :=
  if a.isNaN then a.quiet else if b.isNaN then b.quiet else ofResult (f a b)

instance : Add Double := ⟨map₂ (· + ·)⟩

instance : Sub Double := ⟨map₂ (· - ·)⟩

instance : Mul Double := ⟨map₂ (· * ·)⟩

instance : Div Double := ⟨map₂ (· / ·)⟩

/-- A minus sign changes the sign bit and nothing else, also of what is no number. -/
instance : Neg Double := ⟨fun v ↦ ⟨v.bits ^^^ 0x8000000000000000⟩⟩

def abs (v : Double) : Double := ⟨v.bits &&& 0x7fffffffffffffff⟩

/-- The same double, where all that are no numbers count as one. -/
def agrees (a b : Double) : Bool := a = b || a.isNaN && b.isNaN

theorem agrees_self (a : Double) : a.agrees a = true := by
  simp [agrees]

end Double

end Formula
