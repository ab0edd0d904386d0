import Formula.Proofs.Token.Offsets

/-!
# Tokens tile their text

A text is cut into pieces: blank characters and the slices of tokens (`Tiles`). A slice is a symbol,
the longest numeral or the longest name that starts there. The lexer finds such a tiling of the text
or of what is before the first place that it refuses, and so does cutting by the offsets of bytes
(`lex_tiles_text`).
-/

namespace Formula

open Text

namespace Token

/-- A character between tokens, or the characters of a token. -/
inductive Piece where
  | blank (c : Char)
  | slice (s : List Char) (t : Token)

def Piece.chars : Piece → List Char
  | blank c => [c]
  | slice s _ => s

def Piece.token? : Piece → Option Token
  | blank _ => none
  | slice _ t => some t

def chars (ps : List Piece) : List Char := ps.flatMap Piece.chars

def tokens (ps : List Piece) : List Token := ps.filterMap Piece.token?

/-- A token of this kind is cut off in front of `rest`. -/
inductive Cut (rest : List Char) : List Char → Kind → Prop
  | symbol {c : Char} {k : Kind} (h : Kind.ofSymbol? c = some k) : Cut rest [c] k
  | number {c : Char} {cs : List Char} {l : Decimal.Literal} {v : Double}
      (start : isNumberStart c = true) (longest : Longest Decimal.IsNumeral (c :: cs) rest)
      (shape : l.Shaped) (text : l.text = c :: cs) (digits : l.HasDigits)
      (value : Decimal.read? (String.ofList (c :: cs)) = some v) : Cut rest (c :: cs) (.number v)
  | name {s : List Char} (longest : Longest (fun s ↦ IsName (String.ofList s)) s rest) :
      Cut rest s (.ident (String.ofList s))

/-- What cannot be cut: a character that starts nothing, or a numeral in which digits are
missing. -/
inductive Rejects : List Char → Malformed → Prop
  | character {c : Char} {rest : List Char} (blank : isBlank c = false)
      (symbol : Kind.ofSymbol? c = none) (number : isNumberStart c = false)
      (name : isWordStart c = false) : Rejects (c :: rest) (.unexpectedCharacter c)
  | number {c : Char} {cs rest : List Char} {l : Decimal.Literal}
      (start : isNumberStart c = true) (longest : Longest Decimal.IsNumeral (c :: cs) rest)
      (shape : l.Shaped) (text : l.text = c :: cs) (digits : ¬ l.HasDigits) :
      Rejects (c :: cs ++ rest) (.invalidNumber (String.ofList (c :: cs)))

/-- The piece stands at `column`, in front of `rest`. -/
def Piece.Fits (column : Nat) (rest : List Char) : Piece → Prop
  | blank c => isBlank c = true
  | slice s t => t.column = column ∧ Cut rest s t.kind

/-- The pieces stand one behind the other from `column` on, in front of `rest`. -/
def Tiles (column : Nat) (ps : List Piece) (rest : List Char) : Prop :=
  ∀ before p after, ps = before ++ p :: after →
    p.Fits (column + (chars before).length) (chars after ++ rest)

end Token

theorem Text.Longest.eq {P : List Char → Prop} {s s' rest rest' : List Char} (h : Longest P s rest)
    (h' : Longest P s' rest') (heq : s ++ rest = s' ++ rest') : s = s' ∧ rest = rest' := by
  apply List.append_inj heq
  apply Nat.le_antisymm
  · exact h'.most s h.holds (heq ▸ List.prefix_append s rest)
  · exact h.most s' h'.holds (heq ▸ List.prefix_append s' rest')

/-- What is longest stays so when less follows. -/
theorem Text.Longest.left {P : List Char → Prop} {s rest rest' : List Char}
    (h : Longest P s (rest ++ rest')) : Longest P s rest where
  holds := h.holds
  most s' hs' hfront := h.most s' hs' (hfront.trans ⟨rest', List.append_assoc _ _ _⟩)

namespace Token

section Cutting

variable {c : Char} {cs rest : List Char}

theorem longest_name (hc : isWordStart c = true) (cs : List Char) :
    Longest (fun s ↦ IsName (String.ofList s)) (c :: cs.takeWhile isWordPart)
      (cs.dropWhile isWordPart) where
  holds := ⟨c, _, String.toList_ofList, hc, fun d hd ↦ List.mem_takeWhile_imp hd⟩
  most := by
    rintro s' ⟨c', cs', hs', -, hparts⟩ hfront
    rw [String.toList_ofList] at hs'
    rw [hs', List.cons_append, List.takeWhile_append_dropWhile] at hfront
    obtain ⟨-, r, rfl⟩ := List.cons_prefix_cons.1 hfront
    rw [hs', List.takeWhile_append_of_pos hparts]
    simp

theorem isBlank_of_isNumberStart (h : isNumberStart c = true) : isBlank c = false := by
  rcases isNumberStart_iff.1 h with rfl | h
  · decide
  · exact isBlank_of_isDigit h

theorem ofSymbol?_of_isNumberStart (h : isNumberStart c = true) : Kind.ofSymbol? c = none := by
  rcases isNumberStart_iff.1 h with rfl | h
  · rfl
  · exact ofSymbol?_of_isDigit h

theorem isBlank_of_ofSymbol? {k : Kind} (h : Kind.ofSymbol? c = some k) : isBlank c = false := by
  rw [Kind.ofSymbol?.eq_def] at h
  split at h
  all_goals first | decide | cases h

theorem exists_numeral (hc : isNumberStart c = true) (cs : List Char) :
    ∃ s rest l, cs = s ++ rest ∧ Longest Decimal.IsNumeral (c :: s) rest ∧
      Decimal.Literal.Shaped l ∧ l.text = c :: s := by
  obtain ⟨s, hs⟩ := exists_text_scan hc cs
  have hlongest := Decimal.Literal.longest_scan (c :: cs)
  have htext := Decimal.Literal.scan_append (c :: cs)
  rw [hs] at hlongest htext
  exact ⟨s, _, _, (List.cons.inj htext).2.symm, hlongest, Decimal.Literal.shaped_scan _, hs⟩

theorem lexeme_number {l : Decimal.Literal} (hc : isNumberStart c = true)
    (hlongest : Longest Decimal.IsNumeral (c :: cs) rest) (hl : l.Shaped)
    (htext : l.text = c :: cs) :
    lexeme c (cs ++ rest) = l.value?.elim (.error (.invalidNumber (String.ofList (c :: cs))))
      fun d ↦ .ok (.number d.toDouble, cs.length) := by
  have hscan : (Decimal.Literal.scan (c :: (cs ++ rest))).1 = l := by
    have happend := Decimal.Literal.scan_append (c :: (cs ++ rest))
    obtain ⟨hsame, -⟩ := hlongest.eq (Decimal.Literal.longest_scan _) happend.symm
    have hshape := Decimal.Literal.shaped_scan (c :: (cs ++ rest))
    have hread := hshape.scan_text
    rw [← hsame, ← htext, hl.scan_text] at hread
    exact (congrArg Prod.fst hread).symm
  rw [lexeme, ofSymbol?_of_isNumberStart hc]
  simp only [hc, if_true, hscan, htext, List.length_cons, Nat.add_sub_cancel]
  cases l.value? <;> rfl

theorem Cut.exists_lexeme {s : List Char} {k : Kind} (h : Cut rest s k) :
    ∃ c cs, s = c :: cs ∧ isBlank c = false ∧ lexeme c (cs ++ rest) = .ok (k, cs.length) := by
  cases h with
  | @symbol c k hsymbol =>
      refine ⟨c, [], rfl, isBlank_of_ofSymbol? hsymbol, ?_⟩
      rw [lexeme, hsymbol]
      rfl
  | @number c cs l v hc hlongest hl htext hdigits hvalue =>
      refine ⟨c, cs, rfl, isBlank_of_isNumberStart hc, ?_⟩
      rw [hl.read?_text htext (isNumberStart_iff.1 hc)] at hvalue
      obtain ⟨d, hd, rfl⟩ := Option.map_eq_some_iff.1 hvalue
      rw [lexeme_number hc hlongest hl htext, hd, Option.elim_some]
  | name hlongest =>
      obtain ⟨c, cs, hs, hc, -⟩ := hlongest.holds
      rw [String.toList_ofList] at hs
      subst hs
      have hle := le_toNat_of_isWordStart hc
      have hsame := hlongest.eq (longest_name hc (cs ++ rest)) (by simp)
      refine ⟨c, cs, rfl, isBlank_of_isWordStart hc, ?_⟩
      rw [lexeme, ofSymbol?_of_le hle]
      simp only [isNumberStart_of_le hle, hc, Bool.false_eq_true, if_false, if_true,
        ← (List.cons.inj hsame.1).2]

theorem Rejects.exists_lexeme {cs : List Char} {what : Malformed} (h : Rejects cs what) :
    ∃ c cs', cs = c :: cs' ∧ isBlank c = false ∧ lexeme c cs' = .error what := by
  cases h with
  | @character c rest hblank hsymbol hnumber hname =>
      refine ⟨c, rest, rfl, hblank, ?_⟩
      rw [lexeme, hsymbol]
      simp [hnumber, hname]
  | @number c cs rest l hc hlongest hl htext hdigits =>
      refine ⟨c, cs ++ rest, rfl, isBlank_of_isNumberStart hc, ?_⟩
      rw [lexeme_number hc hlongest hl htext, Decimal.Literal.value?_eq_none_iff.2 hdigits,
        Option.elim_none]

/-- What is not blank is cut or rejected. -/
theorem exists_cut_or_rejects (hblank : isBlank c = false) (cs : List Char) :
    (∃ s rest k, cs = s ++ rest ∧ Cut rest (c :: s) k) ∨ ∃ what, Rejects (c :: cs) what := by
  by_cases hnumber : isNumberStart c = true
  · obtain ⟨s, rest, l, rfl, hlongest, hl, htext⟩ := exists_numeral hnumber cs
    have hread := hl.read?_text htext (isNumberStart_iff.1 hnumber)
    cases hvalue : l.value? with
    | none =>
        have hdigits := Decimal.Literal.value?_eq_none_iff.1 hvalue
        exact .inr ⟨_, .number hnumber hlongest hl htext hdigits⟩
    | some d =>
        have hdigits : l.HasDigits := by
          by_contra hdigits
          rw [Decimal.Literal.value?_eq_none_iff.2 hdigits] at hvalue
          cases hvalue
        rw [hvalue] at hread
        exact .inl ⟨s, rest, _, rfl, .number hnumber hlongest hl htext hdigits hread⟩
  · by_cases hname : isWordStart c = true
    · exact .inl ⟨_, _, _, List.takeWhile_append_dropWhile.symm, .name (longest_name hname cs)⟩
    · cases hsymbol : Kind.ofSymbol? c with
      | none =>
          rw [Bool.not_eq_true] at hnumber hname
          exact .inr ⟨_, .character hblank hsymbol hnumber hname⟩
      | some k => exact .inl ⟨[], cs, k, rfl, .symbol hsymbol⟩

theorem Cut.ne_eof {s : List Char} {k : Kind} (h : Cut rest s k) : k ≠ .eof := by
  cases h with
  | symbol hsymbol =>
      rintro rfl
      rw [Kind.ofSymbol?.eq_def] at hsymbol
      split at hsymbol <;> cases hsymbol
  | number => simp
  | name => simp

theorem Cut.left {s rest' : List Char} {k : Kind} (h : Cut (rest ++ rest') s k) : Cut rest s k := by
  cases h with
  | symbol hsymbol => exact .symbol hsymbol
  | number hc hlongest hl htext hdigits hvalue =>
      exact .number hc hlongest.left hl htext hdigits hvalue
  | name hlongest => exact .name hlongest.left

end Cutting

section Tiling

variable {column : Nat} {p : Piece} {ps : List Piece} {rest : List Char}

theorem tiles_nil (column : Nat) (rest : List Char) : Tiles column [] rest := by
  intro before p after h
  simp at h

theorem chars_cons (p : Piece) (ps : List Piece) : chars (p :: ps) = p.chars ++ chars ps :=
  List.flatMap_cons

theorem tiles_cons : Tiles column (p :: ps) rest ↔
    p.Fits column (chars ps ++ rest) ∧ Tiles (column + p.chars.length) ps rest := by
  constructor
  · intro h
    refine ⟨h [] p ps rfl, fun before p' after hps ↦ ?_⟩
    have hfits := h (p :: before) p' after (by rw [hps, List.cons_append])
    rwa [chars_cons, List.length_append, ← Nat.add_assoc] at hfits
  · rintro ⟨hp, h⟩ before p' after hps
    cases before with
    | nil =>
        obtain ⟨rfl, rfl⟩ := List.cons.inj hps
        exact hp
    | cons p₀ before =>
        obtain ⟨rfl, htail⟩ := List.cons.inj hps
        rw [chars_cons, List.length_append, ← Nat.add_assoc]
        exact h before p' after htail

theorem Tiles.left (h : Tiles column ps rest) : Tiles column ps [] := by
  intro before p after hps
  have hfits := h before p after hps
  rw [List.append_nil]
  cases p with
  | blank c => exact hfits
  | slice s t => exact ⟨hfits.1, hfits.2.left⟩

theorem Tiles.kind_ne_eof (h : Tiles column ps rest) {t : Token} (ht : t ∈ tokens ps) :
    t.kind ≠ .eof := by
  obtain ⟨p, hp, htoken⟩ := List.mem_filterMap.1 ht
  obtain ⟨before, after, hps⟩ := List.append_of_mem hp
  have hfits := h before p after hps
  cases p with
  | blank c => cases htoken
  | slice s t' =>
      cases htoken
      exact hfits.2.ne_eof

theorem scan_of_tiles (h : Tiles column ps rest) (found : Array Token) :
    scan column found (chars ps ++ rest) =
      scan (column + (chars ps).length) (found ++ (tokens ps).toArray) rest := by
  induction ps generalizing column found with
  | nil => simp [chars, tokens]
  | cons p ps ih =>
      obtain ⟨hp, hps⟩ := tiles_cons.1 h
      rw [chars_cons, List.append_assoc, List.length_append, ← Nat.add_assoc]
      cases p with
      | blank c =>
          have hblank : isBlank c = true := hp
          have hscan := ih hps found
          simp only [Piece.chars, List.cons_append, List.nil_append] at hscan ⊢
          rw [scan, if_pos hblank]
          exact hscan
      | slice s t =>
          obtain ⟨rfl, hcut⟩ := hp
          obtain ⟨c, cs, rfl, hblank, hlexeme⟩ := hcut.exists_lexeme
          have hscan := ih hps (found.push t)
          simp only [Piece.chars, List.cons_append, List.length_cons] at hscan ⊢
          rw [scan, if_neg (by simp [hblank]), hlexeme]
          simp only [List.drop_left]
          rw [Nat.add_assoc t.column 1, Nat.add_comm 1, hscan]
          simp [tokens, Piece.token?]

theorem exists_tiles (column : Nat) (cs : List Char) :
    ∃ ps rest, cs = chars ps ++ rest ∧ Tiles column ps rest ∧
      (rest = [] ∨ ∃ what, Rejects rest what) := by
  match cs with
  | [] => exact ⟨[], [], rfl, tiles_nil _ _, .inl rfl⟩
  | c :: cs =>
      cases hblank : isBlank c with
      | true =>
          obtain ⟨ps, rest, hcs, htiles, hrest⟩ := exists_tiles (column + 1) cs
          refine ⟨.blank c :: ps, rest, ?_, tiles_cons.2 ⟨hblank, htiles⟩, hrest⟩
          rw [chars_cons, hcs]
          rfl
      | false =>
          rcases exists_cut_or_rejects hblank cs with ⟨s, cs', k, rfl, hcut⟩ | hrejects
          · obtain ⟨ps, rest, rfl, htiles, hrest⟩ := exists_tiles (column + (c :: s).length) cs'
            refine ⟨.slice (c :: s) ⟨k, column⟩ :: ps, rest, ?_, tiles_cons.2 ⟨⟨rfl, hcut⟩, htiles⟩,
              hrest⟩
            rw [chars_cons, List.append_assoc]
            rfl
          · exact ⟨[], c :: cs, rfl, tiles_nil _ _, .inr hrejects⟩
termination_by cs.length

end Tiling

variable {text : String} {ps : List Piece} {rest : List Char}

theorem lex_of_tiles (htext : text.toList = chars ps) (h : Tiles 1 ps []) :
    lex text = .ok (tokens ps ++ [⟨.eof, 1 + (chars ps).length⟩]) := by
  have hscan := scan_of_tiles h #[]
  rw [List.append_nil] at hscan
  rw [lex, htext, hscan, scan]
  simp [Except.map]

theorem lex_of_rejects (htext : text.toList = chars ps ++ rest) (h : Tiles 1 ps rest)
    {what : Malformed} (hwhat : Rejects rest what) :
    lex text = .error (.malformed (1 + (chars ps).length) what) := by
  obtain ⟨c, cs, rfl, hblank, hlexeme⟩ := hwhat.exists_lexeme
  rw [lex, htext, scan_of_tiles h, scan, if_neg (by simp [hblank]), hlexeme]
  rfl

theorem exists_tiles_of_lex {ts : List Token} (h : lex text = .ok ts) :
    ∃ ps, text.toList = chars ps ∧ Tiles 1 ps [] ∧
      ts = tokens ps ++ [⟨.eof, 1 + text.toList.length⟩] := by
  obtain ⟨ps, rest, htext, htiles, hrest⟩ := exists_tiles 1 text.toList
  rcases hrest with rfl | ⟨what, hwhat⟩
  · rw [List.append_nil] at htext
    rw [lex_of_tiles htext htiles] at h
    cases h
    exact ⟨ps, htext, htiles, by rw [htext]⟩
  · rw [lex_of_rejects htext htiles hwhat] at h
    cases h

theorem exists_rejects_of_lex {e : ReadError} (h : lex text = .error e) :
    ∃ ps rest what, text.toList = chars ps ++ rest ∧ Tiles 1 ps rest ∧ Rejects rest what ∧
      e = .malformed (1 + (chars ps).length) what := by
  obtain ⟨ps, rest, htext, htiles, hrest⟩ := exists_tiles 1 text.toList
  rcases hrest with rfl | ⟨what, hwhat⟩
  · rw [List.append_nil] at htext
    rw [lex_of_tiles htext htiles] at h
    cases h
  · rw [lex_of_rejects htext htiles hwhat] at h
    cases h
    exact ⟨ps, rest, what, htext, htiles, hwhat, rfl⟩

/-- The tokens of a text are those of a tiling of it by blank characters and slices, each at its
column, with the end of the text behind them. A text without tokens is tiled up to a character that
starts nothing or a numeral without the digits that it needs, the error has the column of that
place, and what is before it has tokens. Cutting the text by the offsets of its bytes gives the
same. -/
theorem lex_tiles_text (text : String) :
    (∀ ts, lex text = .ok ts ↔ ∃ ps, text.toList = chars ps ∧ Tiles 1 ps [] ∧
      ts = tokens ps ++ [⟨.eof, 1 + text.toList.length⟩]) ∧
    (∀ e, lex text = .error e ↔ ∃ ps rest what, text.toList = chars ps ++ rest ∧ Tiles 1 ps rest ∧
      Rejects rest what ∧ e = .malformed (1 + (chars ps).length) what ∧
      lex (String.ofList (chars ps)) = .ok (tokens ps ++ [⟨.eof, 1 + (chars ps).length⟩])) ∧
    lexByOffsets text = some (lex text) := by
  refine ⟨?_, ?_, lexByOffsets_eq text⟩
  · intro ts
    constructor
    · exact exists_tiles_of_lex
    · rintro ⟨ps, htext, htiles, rfl⟩
      rw [lex_of_tiles htext htiles, htext]
  · intro e
    constructor
    · intro h
      obtain ⟨ps, rest, what, htext, htiles, hwhat, rfl⟩ := exists_rejects_of_lex h
      exact ⟨ps, rest, what, htext, htiles, hwhat, rfl,
        lex_of_tiles String.toList_ofList htiles.left⟩
    · rintro ⟨ps, rest, what, htext, htiles, hwhat, rfl, -⟩
      exact lex_of_rejects htext htiles hwhat

end Token

end Formula
