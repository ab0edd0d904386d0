import Formula.Decimal.Literal
import Formula.Proofs.Decimal.Nearest

/-!
# Written doubles are read back

The form that numbers have in formulas is a sign and the text of a literal without exponent. A
literal is scanned as it was written, whatever follows it that cannot go on with it, and the digits
that were written read back as the magnitude of the double (`Decimal.exists_literal_write`).
-/

namespace Formula.Decimal

/-- What cannot go on with a literal. -/
def Stops (rest : List Char) : Prop :=
  ∀ c ∈ rest.head?, c.isDigit = false ∧ c ≠ '.' ∧ c ≠ 'e' ∧ c ≠ 'E'

/-- A run of characters of one sort ends where something else follows. -/
theorem run_append {p : Char → Bool} {ds rest : List Char} (hds : ∀ c ∈ ds, p c = true)
    (hrest : ∀ c ∈ rest.head?, p c = false) :
    (ds ++ rest).takeWhile p = ds ∧ (ds ++ rest).dropWhile p = rest := by
  rw [List.takeWhile_append_of_pos hds, List.dropWhile_append_of_pos hds]
  cases rest with
  | nil => simp
  | cons c cs =>
      have hc := hrest c rfl
      simp [hc]

theorem Power.scan_of_stops {rest : List Char} (hrest : Stops rest) :
    Power.scan rest = (none, rest) := by
  cases rest with
  | nil => rfl
  | cons c cs =>
      obtain ⟨-, -, he, he'⟩ := hrest c rfl
      simp [Power.scan, he, he']

theorem Literal.scan_text_append {whole : List Char} {fraction : Option (List Char)}
    {rest : List Char} (hwhole : ∀ c ∈ whole, c.isDigit = true)
    (hfraction : ∀ ds ∈ fraction, ∀ c ∈ ds, c.isDigit = true) (hrest : Stops rest) :
    Literal.scan ((⟨whole, fraction, none⟩ : Literal).text ++ rest) =
      (⟨whole, fraction, none⟩, rest) := by
  have hdigit : ∀ c ∈ rest.head?, c.isDigit = false := fun c hc ↦ (hrest c hc).1
  cases fraction with
  | none =>
      obtain ⟨htake, hdrop⟩ := run_append hwhole hdigit
      have hpoint : Literal.scanFraction rest = (none, rest) := by
        cases rest with
        | nil => rfl
        | cons c cs =>
            have hc := (hrest c rfl).2.1
            rw [Literal.scanFraction.eq_def]
            split
            · next heq =>
                cases heq
                exact absurd rfl hc
            · rfl
      simp [Literal.text, Literal.scan, htake, hdrop, hpoint, Power.scan_of_stops hrest]
  | some ds =>
      obtain ⟨htake, hdrop⟩ := run_append (hfraction ds rfl) hdigit
      have hpoint : ∀ c ∈ ('.' :: (ds ++ rest)).head?, c.isDigit = false := by
        simp [Char.isDigit]
      obtain ⟨htake', hdrop'⟩ := run_append hwhole hpoint
      simp [Literal.text, Literal.scan, Literal.scanFraction, htake, hdrop, htake', hdrop',
        Power.scan_of_stops hrest]

theorem ofDigits_eq (ds : List Char) : ofDigits ds = Nat.ofDigitChars 10 ds 0 :=
  Nat.ofDigitChars_eq_foldl.symm

/-- The literal that a decimal is written as. -/
def positionalLiteral (d : Decimal) : Literal :=
  let digits := d.coefficient.repr.toList
  let places := d.exponent.natAbs
  if 0 ≤ d.exponent then ⟨digits ++ List.replicate places '0', none, none⟩
  else if places < digits.length then
    ⟨digits.take (digits.length - places), some (digits.drop (digits.length - places)), none⟩
  else ⟨['0'], some (List.replicate (places - digits.length) '0' ++ digits), none⟩

theorem toList_positionalText (d : Decimal) :
    (positionalText "" d).toList = (positionalLiteral d).text := by
  simp only [positionalText, positionalLiteral, ← String.length_toList]
  split
  · simp [Literal.text, zeros]
  · split
    · simp [Literal.text]
    · simp [Literal.text, zeros]

theorem isDigit_of_mem_repr {n : ℕ} {c : Char} (h : c ∈ n.repr.toList) : c.isDigit = true := by
  rw [Nat.toList_repr] at h
  exact Nat.isDigit_of_mem_toDigits (by omega) le_rfl h

theorem toList_repr_ne_nil (n : ℕ) : n.repr.toList ≠ [] := by
  rw [Nat.toList_repr]
  exact Nat.toDigits_ne_nil

theorem isDigit_of_mem_replicate {n : ℕ} {c : Char} (h : c ∈ List.replicate n '0') :
    c.isDigit = true := by
  rw [List.eq_of_mem_replicate h]
  rfl

/-- The literal of a decimal is made of digits, has at least one, and has no exponent. -/
structure Literal.Plain (l : Literal) : Prop where
  whole_ne_nil : l.whole ≠ []
  whole : ∀ c ∈ l.whole, c.isDigit = true
  fraction : ∀ ds ∈ l.fraction, ∀ c ∈ ds, c.isDigit = true
  power : l.power = none

theorem plain_positionalLiteral (d : Decimal) : (positionalLiteral d).Plain := by
  have hne := toList_repr_ne_nil d.coefficient
  have hdigit : ∀ c ∈ d.coefficient.repr.toList, c.isDigit = true := fun c ↦ isDigit_of_mem_repr
  rw [positionalLiteral]
  generalize d.coefficient.repr.toList = digits at hne hdigit
  split
  · refine ⟨by simp [hne], ?_, by simp, rfl⟩
    intro c hc
    rcases List.mem_append.1 hc with hc | hc
    · exact hdigit c hc
    · exact isDigit_of_mem_replicate hc
  · split
    · next h =>
        refine ⟨?_, fun c hc ↦ hdigit c (List.mem_of_mem_take hc), ?_, rfl⟩
        · have hlen := List.length_pos_of_ne_nil hne
          rw [ne_eq, List.take_eq_nil_iff]
          rintro (h0 | h0)
          · omega
          · exact hne h0
        · rintro ds ⟨⟩ c hc
          exact hdigit c (List.mem_of_mem_drop hc)
    · refine ⟨by simp, by simp, ?_, rfl⟩
      rintro ds ⟨⟩ c hc
      rcases List.mem_append.1 hc with hc | hc
      · exact isDigit_of_mem_replicate hc
      · exact hdigit c hc

/-- The literal of a decimal stands for it, or for its number without exponent. -/
theorem value?_positionalLiteral (d : Decimal) :
    (positionalLiteral d).value? =
      some (if 0 ≤ d.exponent then ⟨d.coefficient * 10 ^ d.exponent.natAbs, 0⟩ else d) := by
  have hvalue : Nat.ofDigitChars 10 d.coefficient.repr.toList 0 = d.coefficient := by
    rw [Nat.toList_repr]
    exact Nat.ofDigitChars_ten_toDigits
  have hne := toList_repr_ne_nil d.coefficient
  obtain ⟨c, e⟩ := d
  rw [positionalLiteral]
  simp only at hvalue hne ⊢
  generalize c.repr.toList = digits at hvalue hne
  split
  · simp [Literal.value?, hne, ofDigits_eq, Nat.ofDigitChars_append, hvalue,
      Nat.ofDigitChars_replicate_zero, mul_comm]
  · split
    · simp [Literal.value?, hne, ofDigits_eq, hvalue]
      omega
    · simp [Literal.value?, ofDigits_eq, Nat.ofDigitChars_append, hvalue,
        Nat.ofDigitChars_replicate_zero, Nat.ofDigitChars_cons]
      omega

theorem toFloat_of_exponent_nonneg {d : Decimal} (h : 0 ≤ d.exponent) :
    (⟨d.coefficient * 10 ^ d.exponent.natAbs, 0⟩ : Decimal).toFloat = d.toFloat := by
  by_cases hc : d.coefficient = 0
  · rw [hc, Nat.zero_mul, toFloat, toFloat, if_pos rfl, if_pos hc]
  · apply toFloat_congr hc
    have hten := ten_zpow d.exponent
    rw [if_neg (not_lt.2 h)] at hten
    rw [value, value, hten]
    push_cast
    rw [mul_one]

/-- A double is written as a sign and a literal of digits, which reads back as its magnitude. -/
theorem exists_literal_write {v : Float} (hv : v.isFinite = true) :
    ∃ l : Literal, ∃ d, (plain.write v).toList = (if isNegative v then ['-'] else []) ++ l.text ∧
      l.Plain ∧ l.value? = some d ∧ d.toFloat = v.abs := by
  obtain ⟨hnan, hinf⟩ := (Double.isFinite_iff v).1 hv
  have hread : (shortest .up v).toFloat = v.abs := readsBack_shortest hv .up
  refine ⟨positionalLiteral (shortest .up v), _, ?_, plain_positionalLiteral _,
    value?_positionalLiteral _, ?_⟩
  · have hwrite : plain.write v =
        (if isNegative v then "-" else "") ++ positionalText "" (shortest .up v) := by
      rw [Layout.write, hnan, hinf]
      rfl
    rw [hwrite, String.toList_append, toList_positionalText]
    split <;> rfl
  · split
    · next h => rw [toFloat_of_exponent_nonneg h, hread]
    · exact hread

end Formula.Decimal
