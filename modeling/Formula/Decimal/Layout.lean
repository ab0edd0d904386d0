import Formula.Decimal.Shortest

/-!
# Written forms of doubles

`Layout` holds the decisions of a written form; `Layout.write` follows them. The digits are always
the fewest that read back.
-/

namespace Formula.Decimal

structure Layout where
  /-- Which digits are taken when two choices are as short and as near. -/
  tie : Tie
  /-- Whether a number whose first digit stands for this power of ten is written without exponent.
  -/
  positional : Int → Bool
  wholeEnd : String
  nan : String
  infinity : String
  negInfinity : String

def zeros (n : Nat) : String := String.ofList (List.replicate n '0')

def positionalText (wholeEnd : String) (d : Decimal) : String :=
  let digits := d.coefficient.repr
  if 0 ≤ d.exponent then digits ++ zeros d.exponent.natAbs ++ wholeEnd
  else
    let places := d.exponent.natAbs
    if places < digits.length then
      let whole := digits.length - places
      String.ofList (digits.toList.take whole) ++ "." ++ String.ofList (digits.toList.drop whole)
    else "0." ++ zeros (places - digits.length) ++ digits

/-- The power of ten of the first digit. -/
def firstPower (d : Decimal) : Int := d.coefficient.repr.length + d.exponent - 1

def exponentText (d : Decimal) : String :=
  let e := firstPower d
  let mark := if e < 0 then "e-" else "e+"
  let fraction := match d.coefficient.repr.toList with
    | c :: [] => [c]
    | c :: cs => c :: '.' :: cs
    | [] => []
  String.ofList fraction ++ mark ++ e.natAbs.repr

def isNegative (v : Float) : Bool := v.toBits.toNat / 0x8000000000000000 = 1

def Layout.write (l : Layout) (v : Float) : String :=
  if v.isNaN then l.nan
  else if v.isInf then if isNegative v then l.negInfinity else l.infinity
  else
    let d := shortest l.tie v
    let sign := if isNegative v then "-" else ""
    sign ++ if l.positional (firstPower d) then positionalText l.wholeEnd d else exponentText d

/-- The form numbers have in formulas: digits and at most a point, however long. -/
def plain : Layout where
  tie := .up
  positional := fun _ ↦ true
  wholeEnd := ""
  nan := "NaN"
  infinity := "inf"
  negInfinity := "-inf"

end Formula.Decimal
