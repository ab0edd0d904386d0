import Formula.Proofs.Decimal.Text

/-!
# The shape of number literals

The texts of the shape `digits [. digits] [e [sign] digits]` are the numerals. A numeral is read as
the one literal that has its text (`Literal.Shaped.scan_text`), and what is scanned off the front of
a text is the longest numeral there (`Literal.longest_scan`).
-/

namespace Formula

/-- Of the texts of one sort, the longest that `s ++ rest` starts with. -/
structure Text.Longest (P : List Char → Prop) (s rest : List Char) : Prop where
  holds : P s
  most : ∀ s', P s' → s' <+: s ++ rest → s'.length ≤ s.length

namespace Decimal

structure Power.Shaped (p : Power) : Prop where
  mark : p.mark = 'e' ∨ p.mark = 'E'
  sign : p.sign = none ∨ p.sign = some '+' ∨ p.sign = some '-'
  digits : ∀ c ∈ p.digits, c.isDigit = true

structure Literal.Shaped (l : Literal) : Prop where
  whole : ∀ c ∈ l.whole, c.isDigit = true
  fraction : ∀ ds ∈ l.fraction, ∀ c ∈ ds, c.isDigit = true
  power : ∀ p ∈ l.power, p.Shaped

/-- A digit before the exponent mark, and one behind it if there is a mark. -/
structure Literal.HasDigits (l : Literal) : Prop where
  mantissa : l.whole ++ l.fraction.getD [] ≠ []
  exponent : ∀ p ∈ l.power, p.digits ≠ []

def IsNumeral (s : List Char) : Prop := ∃ l : Literal, l.Shaped ∧ l.text = s

namespace Power

variable {p : Power}

theorem Shaped.isDigit_mark (h : p.Shaped) : p.mark.isDigit = false := by
  rcases h.mark with hmark | hmark <;> rw [hmark] <;> rfl

theorem Shaped.mark_ne_point (h : p.Shaped) : p.mark ≠ '.' := by
  rcases h.mark with hmark | hmark <;> rw [hmark] <;> decide

theorem Shaped.dropWhile_text_append (h : p.Shaped) (r : List Char) :
    (p.text ++ r).dropWhile Char.isDigit = p.text ++ r :=
  List.dropWhile_cons_of_neg (by simp [h.isDigit_mark])

theorem scanSign_of_isDigit {cs : List Char} (h : ∀ c ∈ cs.head?, c.isDigit = true) :
    scanSign cs = (none, cs) := by
  rw [scanSign.eq_def]
  split
  · exact absurd (h _ rfl) (by decide)
  · exact absurd (h _ rfl) (by decide)
  · rfl

theorem scan_cons {c : Char} (h : c = 'e' ∨ c = 'E') (cs : List Char) :
    scan (c :: cs) = (some ⟨c, (scanSign cs).1, (scanSign cs).2.takeWhile Char.isDigit⟩,
      (scanSign cs).2.dropWhile Char.isDigit) := by
  rw [scan, if_pos h]

theorem Shaped.scan_text (h : p.Shaped) : scan p.text = (some p, []) := by
  obtain ⟨mark, sign, digits⟩ := p
  have hsign : scanSign (sign.toList ++ digits) = (sign, digits) := by
    rcases h.sign with hs | hs | hs <;> cases hs
    · exact scanSign_of_isDigit fun c hc ↦ h.digits c (List.mem_of_mem_head? hc)
    · rfl
    · rfl
  rw [text, scan_cons h.mark, hsign, List.takeWhile_eq_self_iff.2 h.digits,
    List.dropWhile_eq_nil_iff.2 h.digits]

theorem Shaped.scan_append_suffix (h : p.Shaped) (r : List Char) :
    (scan (p.text ++ r)).2 <:+ r := by
  obtain ⟨mark, sign, digits⟩ := p
  have hdigits : (digits ++ r).dropWhile Char.isDigit <:+ r := by
    rw [List.dropWhile_append_of_pos h.digits]
    exact List.dropWhile_suffix _
  rw [text, List.cons_append, scan_cons h.mark]
  rcases h.sign with hs | hs | hs <;> cases hs
  · cases digits with
    | nil => exact (List.dropWhile_suffix _).trans ⟨_, scanSign_append r⟩
    | cons c cs =>
        have hsign : scanSign (c :: cs ++ r) = (none, c :: cs ++ r) :=
          scanSign_of_isDigit fun d hd ↦ h.digits d (by simp_all)
        rw [Option.toList_none, List.nil_append, hsign]
        exact hdigits
  · exact hdigits
  · exact hdigits

theorem shaped_scan (cs : List Char) : ∀ p ∈ (scan cs).1, p.Shaped := by
  cases cs with
  | nil => rintro p ⟨⟩
  | cons c cs =>
      by_cases hc : c = 'e' ∨ c = 'E'
      · rw [scan_cons hc]
        rintro p ⟨⟩
        refine ⟨hc, ?_, fun d hd ↦ List.mem_takeWhile_imp hd⟩
        change (scanSign cs).1 = none ∨ _
        rw [scanSign.eq_def]
        split <;> simp
      · rw [scan, if_neg hc]
        rintro p ⟨⟩

end Power

namespace Literal

variable {l : Literal}

theorem scanFraction_of_ne {c : Char} (h : c ≠ '.') (cs : List Char) :
    scanFraction (c :: cs) = (none, c :: cs) := by
  rw [scanFraction.eq_def]
  split
  · next heq =>
      cases heq
      exact absurd rfl h
  · rfl

theorem shaped_scan (cs : List Char) : (scan cs).1.Shaped where
  whole c hc := List.mem_takeWhile_imp hc
  fraction := by
    change ∀ ds ∈ (scanFraction _).1, ∀ c ∈ ds, c.isDigit = true
    rw [scanFraction.eq_def]
    split
    · rintro ds ⟨⟩ c hc
      exact List.mem_takeWhile_imp hc
    · rintro ds ⟨⟩
  power := Power.shaped_scan _

/-- What is behind the point, or behind the digits if there is none. -/
theorem Shaped.scan_power_suffix (h : l.Shaped) (r : List Char) :
    (Power.scan ((l.power.elim [] Power.text ++ r).dropWhile Char.isDigit)).2 <:+ r := by
  cases hpower : l.power with
  | none => exact List.IsSuffix.trans ⟨_, Power.scan_append _⟩ (List.dropWhile_suffix _)
  | some p =>
      have hp := h.power p hpower
      rw [Option.elim_some, hp.dropWhile_text_append]
      exact hp.scan_append_suffix r

/-- However the text goes on, no less than the literal is taken. -/
theorem Shaped.scan_append_suffix (h : l.Shaped) (r : List Char) :
    (scan (l.text ++ r)).2 <:+ r := by
  change (Power.scan (scanFraction ((l.text ++ r).dropWhile Char.isDigit)).2).2 <:+ r
  rw [text, List.append_assoc, List.append_assoc, List.dropWhile_append_of_pos h.whole]
  cases hfraction : l.fraction with
  | some ds =>
      change (Power.scan ((ds ++ (l.power.elim [] Power.text ++ r)).dropWhile Char.isDigit)).2 <:+ r
      rw [List.dropWhile_append_of_pos (h.fraction ds hfraction)]
      exact h.scan_power_suffix r
  | none =>
      rw [Option.elim_none, List.nil_append]
      cases hpower : l.power with
      | none =>
          apply List.IsSuffix.trans ⟨_, Power.scan_append _⟩
          apply List.IsSuffix.trans ⟨_, scanFraction_append _⟩
          exact List.dropWhile_suffix _
      | some p =>
          have hp := h.power p hpower
          have hpoint : scanFraction (p.text ++ r) = (none, p.text ++ r) :=
            scanFraction_of_ne hp.mark_ne_point _
          rw [Option.elim_some, hp.dropWhile_text_append, hpoint]
          exact hp.scan_append_suffix r

theorem longest_scan (cs : List Char) : Text.Longest IsNumeral (scan cs).1.text (scan cs).2 where
  holds := ⟨_, shaped_scan cs, rfl⟩
  most := by
    rintro _ ⟨l, hl, rfl⟩ hfront
    have htext := scan_append cs
    rw [htext] at hfront
    obtain ⟨r, rfl⟩ := hfront
    have hrest := (hl.scan_append_suffix r).length_le
    have hlength := congrArg List.length htext
    rw [List.length_append, List.length_append] at hlength
    omega

theorem Shaped.scan_text (h : l.Shaped) : scan l.text = (l, []) := by
  obtain ⟨whole, fraction, power⟩ := l
  have hpower : Power.scan (power.elim [] Power.text) = (power, []) := by
    cases power with
    | none => rfl
    | some p => exact (h.power p rfl).scan_text
  have hhead : ∀ c ∈ (power.elim [] Power.text).head?, c.isDigit = false ∧ c ≠ '.' := by
    cases power with
    | none => simp
    | some p =>
        rintro c ⟨⟩
        exact ⟨(h.power p rfl).isDigit_mark, (h.power p rfl).mark_ne_point⟩
  generalize hP : power.elim [] Power.text = P at hpower hhead
  cases fraction with
  | none =>
      obtain ⟨htake, hdrop⟩ := run_append h.whole fun c hc ↦ (hhead c hc).1
      have hpoint : scanFraction P = (none, P) := by
        cases P with
        | nil => rfl
        | cons c cs => exact scanFraction_of_ne (hhead c rfl).2 cs
      simp [text, hP, scan, htake, hdrop, hpoint, hpower]
  | some ds =>
      obtain ⟨htake, hdrop⟩ := run_append (h.fraction ds rfl) fun c hc ↦ (hhead c hc).1
      have hstop : ∀ c ∈ ('.' :: (ds ++ P)).head?, c.isDigit = false := by
        rintro c ⟨⟩
        rfl
      obtain ⟨htake', hdrop'⟩ := run_append h.whole hstop
      simp [text, hP, scan, scanFraction, htake, hdrop, htake', hdrop', hpower]

theorem value?_eq_none_iff : l.value? = none ↔ ¬ l.HasDigits := by
  obtain ⟨whole, fraction, power⟩ := l
  by_cases hmantissa : whole ++ fraction.getD [] = []
  · exact ⟨fun _ h ↦ h.mantissa hmantissa, fun _ ↦ if_pos hmantissa⟩
  · rw [value?, if_neg hmantissa]
    cases power with
    | none =>
        constructor
        · rintro ⟨⟩
        · intro h
          exact absurd ⟨hmantissa, by simp⟩ h
    | some p =>
        rw [Option.map_eq_none_iff, Power.value?]
        constructor
        · intro hvalue h
          rw [if_neg (h.exponent p rfl)] at hvalue
          cases hvalue
        · intro h
          by_contra hvalue
          apply h
          refine ⟨hmantissa, ?_⟩
          rintro _ ⟨⟩ hdigits
          exact hvalue (if_pos hdigits)

end Literal

/-- A text that starts with a digit or a point has no sign, and it is no word. -/
theorem read?_cons {c : Char} (hc : c = '.' ∨ c.isDigit = true) (cs : List Char) :
    read? (String.ofList (c :: cs)) =
      match Literal.scan (c :: cs) with
      | (l, []) => l.value?.map toDouble
      | _ => none := by
  have hplain : (c ≠ '+' ∧ c ≠ '-') ∧ c.toLower ≠ 'i' ∧ c.toLower ≠ 'n' := by
    rcases hc with rfl | hc
    · decide
    · obtain ⟨hlo, hhi⟩ : 48 ≤ c.toNat ∧ c.toNat ≤ 57 := Char.isDigit_iff_toNat.1 hc
      rw [← Char.ofNat_toNat c]
      generalize c.toNat = n at hlo hhi
      interval_cases n <;> decide
  have hsign : Power.scanSign (c :: cs) = (none, c :: cs) := by
    rw [Power.scanSign.eq_def]
    split
    · next heq => exact absurd (List.cons.inj heq).1 hplain.1.1
    · next heq => exact absurd (List.cons.inj heq).1 hplain.1.2
    · rfl
  have hword : ∀ d ds, String.ofList ((c :: cs).map Char.toLower) = String.ofList (d :: ds) →
      c.toLower = d := by
    intro d ds h
    exact (List.cons.inj (String.ofList_injective h)).1
  simp only [read?, String.toList_ofList, hsign, reduceCtorEq, if_false, Option.map_id']
  split
  · next h => exact absurd (hword 'i' _ h) hplain.2.1
  · next h => exact absurd (hword 'i' _ h) hplain.2.1
  · next h => exact absurd (hword 'n' _ h) hplain.2.2
  · rfl

theorem Literal.Shaped.read?_text {l : Literal} (h : l.Shaped) {c : Char} {cs : List Char}
    (htext : l.text = c :: cs) (hc : c = '.' ∨ c.isDigit = true) :
    read? (String.ofList (c :: cs)) = l.value?.map toDouble := by
  rw [read?_cons hc, ← htext, h.scan_text]

end Decimal

end Formula
