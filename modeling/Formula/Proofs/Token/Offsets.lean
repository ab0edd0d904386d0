import Formula.Proofs.Decimal.Shape
import Formula.Proofs.Token.Display

/-!
# Cutting by offsets

Tokens are cut here by the offsets of their first and last bytes, while columns count characters. A
cut that is not between two characters fails, and so does a scan that is not done within its number
of rounds. A cursor stands between two parts of the text (`Cursor.At`), which tells its offset and
its column, and moving it takes characters from one part to the other. What is cut between two
places of the cursor are the characters that it has passed (`Cursor.At.slice?_eq`). So no cut fails,
and the tokens are those of the lexer (`lexByOffsets_eq`).
-/

namespace Formula.Token

/-- The characters ahead with the offsets of their first bytes, and the column of the first one. -/
structure Cursor where
  ahead : List (Nat × Char)
  column : Nat

/-- The bytes between two offsets as a text. -/
def slice? (text : String) (start stop : Nat) : Option String :=
  if start ≤ stop ∧ String.Pos.Raw.IsValid text ⟨start⟩ ∧ String.Pos.Raw.IsValid text ⟨stop⟩ then
    String.fromUTF8? (text.toByteArray.extract start stop)
  else none

namespace Cursor

def indexed (offset : Nat) : List Char → List (Nat × Char)
  | [] => []
  | c :: cs => (offset, c) :: indexed (offset + c.utf8Size) cs

def start (text : String) : Cursor := ⟨indexed 0 text.toList, 1⟩

def peek? (p : Cursor) : Option Char := p.ahead.head?.map Prod.snd

def advance : Cursor → Cursor
  | ⟨[], column⟩ => ⟨[], column⟩
  | ⟨_ :: ahead, column⟩ => ⟨ahead, column + 1⟩

def skip (q : Char → Bool) : Cursor → Cursor
  | ⟨[], column⟩ => ⟨[], column⟩
  | ⟨(i, c) :: ahead, column⟩ =>
    if q c then skip q ⟨ahead, column + 1⟩ else ⟨(i, c) :: ahead, column⟩
termination_by p => p.ahead.length

/-- The offset of the next character, or of the end of the text. -/
def offset (text : String) (p : Cursor) : Nat :=
  (p.ahead.head?.map Prod.fst).getD text.utf8ByteSize

def skipFraction (p : Cursor) : Cursor :=
  if p.peek? = some '.' then p.advance.skip Char.isDigit else p

def skipSign (p : Cursor) : Cursor :=
  if p.peek? = some '+' ∨ p.peek? = some '-' then p.advance else p

def skipPower (p : Cursor) : Cursor :=
  if p.peek? = some 'e' ∨ p.peek? = some 'E' then p.advance.skipSign.skip Char.isDigit else p

def skipNumber (p : Cursor) : Cursor := (p.skip Char.isDigit).skipFraction.skipPower

/-- The token at the cursor, which starts with `c`, and the cursor behind it. -/
def lexeme? (text : String) (c : Char) (p : Cursor) : Option (Except Malformed Kind × Cursor) :=
  match Kind.ofSymbol? c with
  | some kind => some (.ok kind, p.advance)
  | none =>
    if isNumberStart c then do
      let s ← slice? text (p.offset text) (p.skipNumber.offset text)
      match Decimal.read? s with
      | some v => return (.ok (.number v), p.skipNumber)
      | none => return (.error (.invalidNumber s), p.skipNumber)
    else if isWordStart c then do
      let s ← slice? text (p.offset text) ((p.skip isWordPart).offset text)
      return (.ok (.ident s), p.skip isWordPart)
    else some (.error (.unexpectedCharacter c), p)

end Cursor

/-- The tokens from the cursor on, behind those found already, within a number of rounds. -/
def scanByOffsets (text : String) :
    Nat → Array Token → Cursor → Option (Except ReadError (Array Token))
  | 0, _, _ => none
  | n + 1, found, p =>
    let p := p.skip Text.isBlank
    match p.peek? with
    | none => some (.ok (found.push ⟨.eof, p.column⟩))
    | some c =>
      match p.lexeme? text c with
      | none => none
      | some (.error what, _) => some (.error (.malformed p.column what))
      | some (.ok kind, q) => scanByOffsets text n (found.push ⟨kind, p.column⟩) q

def lexByOffsets (text : String) : Option (Except ReadError (List Token)) :=
  (scanByOffsets text (text.length + 1) #[] (.start text)).map fun result ↦
    result.map Array.toList

section Slices

variable {text : String} {before s rest : List Char}

theorem isValid_utf8Len (h : text.toList = before ++ rest) :
    String.Pos.Raw.IsValid text ⟨String.utf8Len before⟩ := by
  rw [String.Pos.Raw.isValid_iff_exists_append]
  refine ⟨.ofList before, .ofList rest, ?_, ?_⟩
  · rw [← String.ofList_append, ← h, String.ofList_toList]
  · rw [← String.utf8ByteSize_ofList]
    rfl

/-- What is cut between two places in a text are the characters between them. -/
theorem slice?_eq (h : text.toList = before ++ (s ++ rest)) :
    slice? text (String.utf8Len before) (String.utf8Len (before ++ s)) = some (.ofList s) := by
  have hstart := isValid_utf8Len h
  have hstop : String.Pos.Raw.IsValid text ⟨String.utf8Len (before ++ s)⟩ :=
    isValid_utf8Len (by rw [h, List.append_assoc])
  have htext : text = .ofList before ++ (.ofList s ++ .ofList rest) := by
    rw [← String.ofList_append, ← String.ofList_append, ← h, String.ofList_toList]
  have hsize : ∀ cs, String.utf8Len cs = (String.ofList cs).toByteArray.size := by
    intro cs
    rw [String.size_toByteArray, String.utf8ByteSize_ofList]
  have hbytes : text.toByteArray.extract (String.utf8Len before) (String.utf8Len (before ++ s)) =
      (String.ofList s).toByteArray := by
    rw [String.utf8Len_append, hsize, hsize, htext, String.toByteArray_append,
      String.toByteArray_append, ← Nat.add_zero (String.ofList before).toByteArray.size,
      Nat.add_assoc, ByteArray.extract_append_size_add, Nat.zero_add]
    exact ByteArray.extract_append_eq_left rfl
  have hle : String.utf8Len before ≤ String.utf8Len (before ++ s) := by
    rw [String.utf8Len_append]
    exact Nat.le_add_right _ _
  rw [slice?, if_pos ⟨hle, hstart, hstop⟩, hbytes, String.fromUTF8?,
    dif_pos (String.ofList s).isValidUTF8]
  rfl

end Slices

theorem isNumberStart_iff {c : Char} : isNumberStart c = true ↔ c = '.' ∨ c.isDigit = true := by
  rw [isNumberStart, Bool.or_eq_true, decide_eq_true_eq]

/-- A number is scanned from its first character on. -/
theorem exists_text_scan {c : Char} (hc : isNumberStart c = true) (cs : List Char) :
    ∃ s, (Decimal.Literal.scan (c :: cs)).1.text = c :: s := by
  rcases isNumberStart_iff.1 hc with rfl | hdigit
  · exact ⟨_, rfl⟩
  · simp [Decimal.Literal.scan, Decimal.Literal.text, hdigit]

namespace Cursor

/-- The cursor stands behind one part of the text and in front of the other. -/
structure At (text : String) (before rest : List Char) (p : Cursor) : Prop where
  parts : text.toList = before ++ rest
  ahead : p.ahead = indexed (String.utf8Len before) rest
  column : p.column = before.length + 1

variable {text : String} {p : Cursor} {c : Char} {before s rest cs : List Char}

theorem at_start (text : String) : (start text).At text [] text.toList := ⟨rfl, rfl, rfl⟩

namespace At

theorem peek?_eq (h : p.At text before rest) : p.peek? = rest.head? := by
  rw [peek?, h.ahead]
  cases rest <;> rfl

theorem offset_eq (h : p.At text before rest) : p.offset text = String.utf8Len before := by
  rw [offset, h.ahead]
  cases rest with
  | nil =>
      have htext : text = .ofList before := by
        rw [← String.ofList_toList (s := text), h.parts, List.append_nil]
      rw [htext]
      exact String.utf8ByteSize_ofList before
  | cons c rest => rfl

theorem advance (h : p.At text before (c :: rest)) : p.advance.At text (before ++ [c]) rest := by
  obtain ⟨ahead, column⟩ := p
  obtain ⟨hparts, hahead, hcolumn⟩ := h
  cases hahead
  refine ⟨by rw [hparts, List.append_assoc]; rfl, ?_, ?_⟩
  · rw [String.utf8Len_append, String.utf8Len_cons, String.utf8Len_nil, Nat.zero_add]
    rfl
  · rw [List.length_append]
    exact congrArg (· + 1) hcolumn

theorem skip (q : Char → Bool) (h : p.At text before rest) :
    (p.skip q).At text (before ++ rest.takeWhile q) (rest.dropWhile q) := by
  induction rest generalizing p before with
  | nil =>
      obtain ⟨ahead, column⟩ := p
      cases h.ahead
      rw [List.takeWhile_nil, List.dropWhile_nil, List.append_nil, Cursor.skip]
      exact h
  | cons c rest ih =>
      have hnext := h.advance
      obtain ⟨ahead, column⟩ := p
      cases h.ahead
      rw [Cursor.skip]
      cases hc : q c with
      | true =>
          have hrest := ih hnext
          rw [List.append_assoc] at hrest
          simpa [hc, Cursor.advance] using hrest
      | false => simpa [hc] using h

/-- What is cut between two places of the cursor are the characters that it has passed. -/
theorem slice?_eq {q : Cursor} (hp : p.At text before (s ++ rest))
    (hq : q.At text (before ++ s) rest) :
    slice? text (p.offset text) (q.offset text) = some (.ofList s) := by
  rw [hp.offset_eq, hq.offset_eq]
  exact Token.slice?_eq hp.parts

theorem skipFraction (h : p.At text before cs) :
    p.skipFraction.At text
      (before ++ (Decimal.Literal.scanFraction cs).1.elim [] ('.' :: ·))
      (Decimal.Literal.scanFraction cs).2 := by
  rw [Cursor.skipFraction, h.peek?_eq]
  cases cs with
  | nil => simpa [Decimal.Literal.scanFraction] using h
  | cons c cs =>
      by_cases hc : c = '.'
      · subst hc
        have hdigits := h.advance.skip Char.isDigit
        rw [List.append_assoc] at hdigits
        exact hdigits
      · rw [Decimal.Literal.scanFraction_of_ne hc]
        simpa [hc] using h

theorem skipSign (h : p.At text before cs) :
    p.skipSign.At text (before ++ (Decimal.Power.scanSign cs).1.toList)
      (Decimal.Power.scanSign cs).2 := by
  rw [Cursor.skipSign, h.peek?_eq, Decimal.Power.scanSign.eq_def]
  split
  · exact h.advance
  · exact h.advance
  · next hplus hminus =>
      have hother : ¬ (cs.head? = some '+' ∨ cs.head? = some '-') := by
        rintro (hhead | hhead)
        · obtain ⟨cs', rfl⟩ := List.head?_eq_some_iff.1 hhead
          exact hplus cs' rfl
        · obtain ⟨cs', rfl⟩ := List.head?_eq_some_iff.1 hhead
          exact hminus cs' rfl
      rw [if_neg hother]
      simpa using h

theorem skipPower (h : p.At text before cs) :
    p.skipPower.At text (before ++ (Decimal.Power.scan cs).1.elim [] Decimal.Power.text)
      (Decimal.Power.scan cs).2 := by
  rw [Cursor.skipPower, h.peek?_eq]
  cases cs with
  | nil => simpa [Decimal.Power.scan] using h
  | cons c cs =>
      by_cases hc : c = 'e' ∨ c = 'E'
      · have hdigits := h.advance.skipSign.skip Char.isDigit
        simpa [Decimal.Power.scan_cons hc, Decimal.Power.text, hc] using hdigits
      · simpa [Decimal.Power.scan, hc] using h

theorem skipNumber (h : p.At text before cs) :
    p.skipNumber.At text (before ++ (Decimal.Literal.scan cs).1.text)
      (Decimal.Literal.scan cs).2 := by
  have hall := (h.skip Char.isDigit).skipFraction.skipPower
  simpa [Cursor.skipNumber, Decimal.Literal.scan, Decimal.Literal.text] using hall

/-- A token that is cut by offsets is the one that is cut from the characters. -/
theorem lexeme?_cases (h : p.At text before (c :: cs)) :
    (∃ k s rest q, cs = s ++ rest ∧ lexeme c cs = .ok (k, s.length) ∧
        p.lexeme? text c = some (.ok k, q) ∧ q.At text (before ++ c :: s) rest) ∨
      ∃ what q, lexeme c cs = .error what ∧ p.lexeme? text c = some (.error what, q) := by
  rw [Cursor.lexeme?, lexeme]
  cases Kind.ofSymbol? c with
  | some k => exact .inl ⟨k, [], cs, _, rfl, rfl, rfl, h.advance⟩
  | none =>
      by_cases hnumber : isNumberStart c = true
      · obtain ⟨s, hs⟩ := exists_text_scan hnumber cs
        have hparts := Decimal.Literal.scan_append (c :: cs)
        have hstop := h.skipNumber
        rw [hs] at hparts hstop
        have hcut := slice?_eq (hparts.symm ▸ h) hstop
        have hread := (Decimal.Literal.shaped_scan (c :: cs)).read?_text hs
          (isNumberStart_iff.1 hnumber)
        simp only [hnumber, if_true, hcut, Option.bind_eq_bind, Option.bind_some, hread, hs]
        cases (Decimal.Literal.scan (c :: cs)).1.value? with
        | none => exact .inr ⟨_, _, rfl, rfl⟩
        | some d => exact .inl ⟨_, s, _, _, (List.cons.inj hparts).2.symm, rfl, rfl, hstop⟩
      · by_cases hword : isWordStart c = true
        · have hpart : isWordPart c = true := by
            rw [isWordPart, ← isWordStart, hword, Bool.true_or]
          have hparts : cs = cs.takeWhile isWordPart ++ cs.dropWhile isWordPart :=
            List.takeWhile_append_dropWhile.symm
          have hstop := h.skip isWordPart
          rw [List.takeWhile_cons_of_pos hpart, List.dropWhile_cons_of_pos hpart] at hstop
          have hcut := slice?_eq (congrArg (c :: ·) hparts ▸ h) hstop
          simp only [hnumber, hword, if_true, hcut]
          exact .inl ⟨_, _, _, _, hparts, rfl, rfl, hstop⟩
        · simp only [hnumber, hword]
          exact .inr ⟨_, _, rfl, rfl⟩

end At

end Cursor

theorem scan_dropWhile (column : Nat) (found : Array Token) (cs : List Char) :
    scan column found cs =
      scan (column + (cs.takeWhile Text.isBlank).length) found (cs.dropWhile Text.isBlank) := by
  induction cs generalizing column with
  | nil => rfl
  | cons c cs ih =>
      cases hc : Text.isBlank c with
      | true =>
          rw [scan, if_pos hc, ih, List.takeWhile_cons_of_pos hc, List.dropWhile_cons_of_pos hc,
            List.length_cons, Nat.add_right_comm]
          rfl
      | false => simp [hc]

theorem scanByOffsets_eq {text : String} {n : Nat} {p : Cursor} {before rest : List Char}
    (h : p.At text before rest) (hn : rest.length < n) (found : Array Token) :
    scanByOffsets text n found p = some (scan (before.length + 1) found rest) := by
  induction n generalizing p before rest found with
  | zero => omega
  | succ n ih =>
      have hskip := h.skip Text.isBlank
      have hlength := List.length_dropWhile_le Text.isBlank rest
      have hhead := List.head?_dropWhile_not Text.isBlank rest
      rw [scanByOffsets, scan_dropWhile, hskip.peek?_eq, hskip.column, List.length_append,
        Nat.add_right_comm]
      cases hrest : rest.dropWhile Text.isBlank with
      | nil => rw [scan]; rfl
      | cons c cs =>
          rw [hrest] at hskip hhead hlength
          have hblank : Text.isBlank c = false := by simpa using hhead
          rw [scan, if_neg (by simp [hblank])]
          simp only [List.head?_cons]
          rcases hskip.lexeme?_cases with
            ⟨k, s, rest', q, rfl, hlexeme, hcut, hq⟩ | ⟨what, q, hlexeme, hcut⟩
          · have hless : rest'.length < n := by
              simp only [List.length_cons, List.length_append] at hlength
              omega
            have hcolumn : (before ++ rest.takeWhile Text.isBlank ++ c :: s).length + 1 =
                before.length + 1 + (rest.takeWhile Text.isBlank).length + 1 + s.length := by
              simp only [List.length_append, List.length_cons]
              omega
            simp only [hlexeme, hcut, List.drop_left]
            rw [ih hq hless, hcolumn]
          · simp only [hlexeme, hcut]

/-- No cut fails, and cutting by offsets gives the tokens of the text. -/
theorem lexByOffsets_eq (text : String) : lexByOffsets text = some (lex text) := by
  rw [lexByOffsets, scanByOffsets_eq (Cursor.at_start text) (by rw [String.length_toList]; omega)]
  rfl

end Formula.Token
