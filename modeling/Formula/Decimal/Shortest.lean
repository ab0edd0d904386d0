import Formula.Decimal.Basic

/-!
# The fewest digits that read back

For a finite double, `Decimal.shortest` gives the decimal with the fewest digits among those that
read back as its magnitude, and of two such decimals the nearer one; where both are as near, the
caller's `Tie` decides. All arithmetic is on naturals.
-/

namespace Formula.Decimal

structure Ratio where
  num : Nat
  den : Nat

namespace Ratio

def geTenPow (r : Ratio) (p : Int) : Bool :=
  if 0 ≤ p then Nat.pow 10 p.natAbs * r.den ≤ r.num else r.den ≤ r.num * Nat.pow 10 p.natAbs

def inUnits (r : Ratio) (k : Int) : Ratio :=
  if 0 ≤ k then ⟨r.num, r.den * Nat.pow 10 k.natAbs⟩ else ⟨r.num * Nat.pow 10 k.natAbs, r.den⟩

end Ratio

/-- The integers `c` and `q` for which a finite double has the magnitude `c * 2 ^ q`. -/
def binaryParts (v : Float) : Nat × Int :=
  let bits := v.toBits.toNat
  let field : Nat := bits / 0x10000000000000 % 0x800
  let fraction := bits % 0x10000000000000
  if field = 0 then (fraction, -1074) else (fraction + 0x10000000000000, (field : Int) - 1075)

def magnitude (v : Float) : Ratio :=
  let (c, q) := binaryParts v
  if 0 ≤ q then ⟨c * Nat.pow 2 q.natAbs, 1⟩ else ⟨c, Nat.pow 2 q.natAbs⟩

def exact (v : Float) : Decimal :=
  let (c, q) := binaryParts v
  if 0 ≤ q then ⟨c * Nat.pow 2 q.natAbs, 0⟩ else ⟨c * Nat.pow 5 q.natAbs, q⟩

/-- The power of ten of the first digit. The estimate from the binary exponent is at most one off.
-/
def leadingPower (v : Float) : Int :=
  let (c, q) := binaryParts v
  let r := magnitude v
  let p := ((c.log2 : Int) + q) * 30103 / 100000
  if r.geTenPow (p + 1) then p + 1 else if r.geTenPow p then p else p - 1

/-- A decimal reads back as a double when it is nearest to that double's magnitude. -/
def ReadsBack (v : Float) (d : Decimal) : Prop := d.toFloat = v.abs

instance (v : Float) (d : Decimal) : Decidable (ReadsBack v d) :=
  inferInstanceAs (Decidable (d.toFloat = v.abs))

inductive Tie where
  | up
  | toEven
deriving DecidableEq, Repr

def Tie.takesLower (tie : Tie) (below : Nat) : Bool :=
  match tie with
  | up => false
  | toEven => below % 2 = 0

/-- Of the two neighbours of a magnitude on the grid of multiples of `10 ^ k`, the one that reads
back; the nearer one if both do. -/
def onGrid? (tie : Tie) (v : Float) (k : Int) : Option Decimal :=
  let r := (magnitude v).inUnits k
  let below := r.num / r.den
  let lower : Decimal := ⟨below, k⟩
  let upper : Decimal := ⟨below + 1, k⟩
  if ReadsBack v lower then
    if ReadsBack v upper then
      let middle := (2 * below + 1) * r.den
      if 2 * r.num < middle ∨ 2 * r.num = middle ∧ tie.takesLower below then some lower
      else some upper
    else some lower
  else if ReadsBack v upper then some upper
  else none

/-- Moves trailing zeros of the coefficient into the exponent. The count bounds how many. -/
def stripZeros : Nat → Decimal → Decimal
  | 0, d => d
  | n + 1, d =>
    if d.coefficient ≠ 0 ∧ d.coefficient % 10 = 0 then
      stripZeros n ⟨d.coefficient / 10, d.exponent + 1⟩
    else d

def shortest (tie : Tie) (v : Float) : Decimal :=
  if v.toBits.toNat % 0x8000000000000000 = 0 then ⟨0, 0⟩
  else
    let p := leadingPower v
    let found := (List.range 17).findSome? fun n : Nat => onGrid? tie v (p - (n : Int))
    let d := found.getD (exact v)
    stripZeros d.coefficient.log2 d

theorem readsBack_of_onGrid? {tie : Tie} {v : Float} {k : Int} {d : Decimal}
    (h : onGrid? tie v k = some d) : ReadsBack v d := by
  simp only [onGrid?] at h
  split at h
  · split at h
    · split at h <;> cases h <;> assumption
    · cases h; assumption
  · split at h
    · cases h; assumption
    · cases h

end Formula.Decimal
