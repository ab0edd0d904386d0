import Formula.Decimal.Basic

/-!
# Number literals

The shape `digits [. digits] [e [sign] digits]`, where every run of digits may be empty.
`Literal.scan` takes the longest text of that shape from the front of its input. A literal has a
value when it has a digit before the exponent mark, and one after it if there is a mark.
-/

namespace Formula.Decimal

structure Power where
  mark : Char
  sign : Option Char
  digits : List Char
deriving DecidableEq, Repr

/-- The parts of a number literal. `fraction` is absent when there is no point. -/
structure Literal where
  whole : List Char
  fraction : Option (List Char)
  power : Option Power
deriving DecidableEq, Repr

namespace Power

def text (p : Power) : List Char := p.mark :: (p.sign.toList ++ p.digits)

def scanSign : List Char → Option Char × List Char
  | '+' :: cs => (some '+', cs)
  | '-' :: cs => (some '-', cs)
  | cs => (none, cs)

def scan : List Char → Option Power × List Char
  | [] => (none, [])
  | c :: cs =>
    if c = 'e' ∨ c = 'E' then
      let (sign, cs) := scanSign cs
      (some ⟨c, sign, cs.takeWhile Char.isDigit⟩, cs.dropWhile Char.isDigit)
    else (none, c :: cs)

def value? (p : Power) : Option Int :=
  if p.digits = [] then none
  else
    let n : Int := ofDigits p.digits
    some (if p.sign = some '-' then -n else n)

theorem scanSign_append (cs : List Char) :
    (scanSign cs).1.toList ++ (scanSign cs).2 = cs := by
  unfold scanSign
  split <;> rfl

theorem scan_append (cs : List Char) :
    ((scan cs).1.elim [] text) ++ (scan cs).2 = cs := by
  cases cs with
  | nil => rfl
  | cons c cs =>
    by_cases h : c = 'e' ∨ c = 'E'
    · simp [scan, h, text, List.append_assoc, List.takeWhile_append_dropWhile, scanSign_append]
    · simp [scan, h]

end Power

namespace Literal

def text (l : Literal) : List Char :=
  l.whole ++ l.fraction.elim [] ('.' :: ·) ++ l.power.elim [] Power.text

def scanFraction : List Char → Option (List Char) × List Char
  | '.' :: cs => (some (cs.takeWhile Char.isDigit), cs.dropWhile Char.isDigit)
  | cs => (none, cs)

/-- The longest literal at the front of the input, and what follows it. -/
def scan (cs : List Char) : Literal × List Char :=
  let (fraction, rest) := scanFraction (cs.dropWhile Char.isDigit)
  let (power, rest) := Power.scan rest
  (⟨cs.takeWhile Char.isDigit, fraction, power⟩, rest)

def value? (l : Literal) : Option Decimal :=
  let fraction := l.fraction.getD []
  let digits := l.whole ++ fraction
  if digits = [] then none
  else
    match l.power with
    | none => some ⟨ofDigits digits, -fraction.length⟩
    | some p => p.value?.map fun e => ⟨ofDigits digits, e - fraction.length⟩

theorem scanFraction_append (cs : List Char) :
    (scanFraction cs).1.elim [] ('.' :: ·) ++ (scanFraction cs).2 = cs := by
  unfold scanFraction
  split <;> simp [List.takeWhile_append_dropWhile]

theorem scan_append (cs : List Char) : (scan cs).1.text ++ (scan cs).2 = cs := by
  simp only [scan, text, List.append_assoc]
  rw [Power.scan_append, scanFraction_append, List.takeWhile_append_dropWhile]

end Literal

/-- Reads a whole text as a double: an optional sign, then a literal or, in any case of letters,
`inf`, `infinity` or `nan`. -/
def read? (text : String) : Option Double :=
  let (sign, cs) := Power.scanSign text.toList
  let magnitude : Option Double :=
    match String.ofList (cs.map Char.toLower) with
    | "inf" | "infinity" => some (.ofFloat infinity)
    | "nan" => some ⟨0x7ff8000000000000⟩
    | _ =>
      match Literal.scan cs with
      | (l, []) => l.value?.map toDouble
      | _ => none
  magnitude.map fun v => if sign = some '-' then -v else v

end Formula.Decimal
