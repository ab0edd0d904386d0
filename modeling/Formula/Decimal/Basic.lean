import Formula.Double

/-!
# Decimals and the doubles they stand for

A decimal is a coefficient and a power of ten. `Decimal.toFloat` gives the double nearest to it,
with halves going to the even neighbour.
-/

namespace Formula

/-- The number `coefficient * 10 ^ exponent`. -/
structure Decimal where
  coefficient : Nat
  exponent : Int
deriving DecidableEq, Repr

namespace Decimal

def infinity : Float := Float.ofBits 0x7ff0000000000000

/-- The double nearest to a decimal. Beyond the range of doubles the answer is infinity or zero; the
two tests on the exponent only save the powers of ten that cannot matter. -/
def toFloat (d : Decimal) : Float :=
  if d.coefficient = 0 then 0
  else if 400 < d.exponent then infinity
  else if d.exponent + d.coefficient.log2 + 400 < 0 then 0
  else Float.ofScientific d.coefficient (d.exponent < 0) d.exponent.natAbs

def toDouble (d : Decimal) : Double := .ofFloat d.toFloat

def ofDigits (ds : List Char) : Nat :=
  ds.foldl (fun n c => 10 * n + (c.toNat - '0'.toNat)) 0

end Decimal

end Formula
