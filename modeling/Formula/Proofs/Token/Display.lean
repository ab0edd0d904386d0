import Formula.Proofs.Decimal.Text
import Formula.Token.Lexer
import Formula.Tree

/-!
# The tokens of a written formula

A formula is written with every operation in parentheses and a blank on either side of its sign. So
a number or a name is followed by a blank, by a parenthesis or by the end, none of which can go on
with it, and the text is cut where it was put together (`Tree.exists_lex_display`).
-/

namespace Formula

namespace Token

section Characters

variable {c : Char}

/-- Letters come behind the digits, the signs and the parentheses. -/
theorem le_toNat_of_isWordStart (h : isWordStart c = true) : 0x41 ≤ c.toNat := by
  rw [isWordStart, Bool.or_eq_true, decide_eq_true_eq] at h
  rcases h with rfl | h
  · decide
  · by_contra hlt
    have hnone : Text.isLetter c = false := if_pos (not_le.1 hlt)
    rw [h] at hnone
    cases hnone

theorem ofSymbol?_of_le (h : 0x41 ≤ c.toNat) : Kind.ofSymbol? c = none := by
  rw [Kind.ofSymbol?.eq_def]
  split
  all_goals first | rfl | exact absurd h (by decide)

theorem isNumberStart_of_le (h : 0x41 ≤ c.toNat) : isNumberStart c = false := by
  rw [isNumberStart, Bool.or_eq_false_iff, decide_eq_false_iff_not]
  constructor
  · rintro rfl
    exact absurd h (by decide)
  · rw [← Bool.not_eq_true, Char.isDigit_iff_toNat]
    rintro ⟨-, h9⟩
    exact absurd (h.trans h9) (by decide)

theorem isBlank_of_isWordStart (h : isWordStart c = true) : Text.isBlank c = false := by
  have hapart : ∀ r ∈ Text.blank.ranges, ∀ k ∈ List.range (r.2 - r.1 + 1),
      r.1 + k ≠ '_'.toNat ∧ Text.CharSet.covers (r.1 + k) Text.letter.ranges = false := by
    decide +kernel
  rw [← Bool.not_eq_true]
  intro hblank
  obtain ⟨r, hr, hlo, hhi⟩ := (Text.blank.contains_iff c).1 hblank
  obtain ⟨hne, hletter⟩ := hapart r hr (c.toNat - r.1) (List.mem_range.2 (by omega))
  rw [Nat.add_sub_cancel' hlo] at hne hletter
  rw [isWordStart, Bool.or_eq_true, decide_eq_true_eq] at h
  rcases h with rfl | h
  · exact hne rfl
  · have hnone : Text.isLetter c = false := hletter
    rw [h] at hnone
    cases hnone

theorem isBlank_of_isDigit (h : c.isDigit = true) : Text.isBlank c = false := by
  have hapart : ∀ r ∈ Text.blank.ranges, r.2 < '0'.toNat ∨ '9'.toNat < r.1 := by decide
  rw [Char.isDigit_iff_toNat] at h
  rw [← Bool.not_eq_true]
  intro hblank
  obtain ⟨r, hr, hlo, hhi⟩ := (Text.blank.contains_iff c).1 hblank
  rcases hapart r hr with hlt | hlt
  · exact absurd (h.1.trans hhi) hlt.not_ge
  · exact absurd (hlo.trans h.2) hlt.not_ge

theorem ofSymbol?_of_isDigit (h : c.isDigit = true) : Kind.ofSymbol? c = none := by
  rw [Kind.ofSymbol?.eq_def]
  split
  all_goals first | rfl | exact absurd h (by decide)

end Characters

def kindsOf (ts : Array Token) : List Kind := ts.toList.map Token.kind

/-- In front of `rest`, the characters are cut into tokens of these kinds. -/
def Reads (cs : List Char) (ks : List Kind) (rest : List Char) : Prop :=
  ∀ column found, ∃ column' found', scan column found (cs ++ rest) = scan column' found' rest ∧
    kindsOf found' = kindsOf found ++ ks

namespace Reads

variable {cs cs' rest : List Char} {ks ks' : List Kind}

theorem append (h : Reads cs ks (cs' ++ rest)) (h' : Reads cs' ks' rest) :
    Reads (cs ++ cs') (ks ++ ks') rest := by
  intro column found
  obtain ⟨column₁, found₁, hscan₁, hkinds₁⟩ := h column found
  obtain ⟨column₂, found₂, hscan₂, hkinds₂⟩ := h' column₁ found₁
  refine ⟨column₂, found₂, ?_, ?_⟩
  · rw [List.append_assoc, hscan₁, hscan₂]
  · rw [hkinds₂, hkinds₁, List.append_assoc]

theorem nil (rest : List Char) : Reads [] [] rest := fun column found ↦
  ⟨column, found, rfl, (List.append_nil _).symm⟩

theorem blank (rest : List Char) : Reads [' '] [] rest := by
  intro column found
  refine ⟨column + 1, found, ?_, by simp⟩
  rw [List.singleton_append, scan, if_pos (by decide)]

theorem of_lexeme {c : Char} {k : Kind} (hblank : Text.isBlank c = false)
    (h : lexeme c (cs ++ rest) = .ok (k, cs.length)) : Reads (c :: cs) [k] rest := by
  intro column found
  refine ⟨column + 1 + cs.length, found.push ⟨k, column⟩, ?_, ?_⟩
  · rw [List.cons_append, scan, if_neg (by simp [hblank]), h]
    simp only [List.drop_left]
  · rw [kindsOf, Array.toList_push, List.map_append]
    rfl

theorem symbol {c : Char} {k : Kind} (hblank : Text.isBlank c = false)
    (h : Kind.ofSymbol? c = some k) (rest : List Char) : Reads [c] [k] rest := by
  apply of_lexeme hblank
  rw [lexeme, h]
  rfl

theorem word {c : Char} (hc : isWordStart c = true) (hcs : ∀ d ∈ cs, isWordPart d = true)
    (hrest : ∀ d ∈ rest.head?, isWordPart d = false) :
    Reads (c :: cs) [.ident (String.ofList (c :: cs))] rest := by
  have hle := le_toNat_of_isWordStart hc
  have htail : (cs ++ rest).takeWhile isWordPart = cs := (Decimal.run_append hcs hrest).1
  apply of_lexeme (isBlank_of_isWordStart hc)
  simp [lexeme, ofSymbol?_of_le hle, isNumberStart_of_le hle, hc, htail]

theorem number {l : Decimal.Literal} {d : Decimal} (hl : l.Plain) (hd : l.value? = some d)
    (hrest : Decimal.Stops rest) : Reads l.text [.number d.toDouble] rest := by
  have hscan : Decimal.Literal.scan (l.text ++ rest) = (l, rest) := by
    obtain ⟨whole, fraction, power⟩ := l
    obtain ⟨-, hwhole, hfraction, rfl⟩ := hl
    exact Decimal.Literal.scan_text_append hwhole hfraction hrest
  obtain ⟨c, cs, htext, hc⟩ : ∃ c cs, l.text = c :: cs ∧ c.isDigit = true := by
    cases hwhole : l.whole with
    | nil => exact absurd hwhole hl.whole_ne_nil
    | cons c cs =>
        refine ⟨c, cs ++ l.fraction.elim [] ('.' :: ·) ++ l.power.elim [] Decimal.Power.text, ?_,
          hl.whole c (by simp [hwhole])⟩
        rw [Decimal.Literal.text, hwhole]
        rfl
  rw [htext] at hscan ⊢
  apply of_lexeme (isBlank_of_isDigit hc)
  rw [List.cons_append] at hscan
  simp [lexeme, ofSymbol?_of_isDigit hc, isNumberStart, hc, hscan, hd, htext]

end Reads

/-- A name that is read as one token. -/
def IsName (name : String) : Prop :=
  ∃ c cs, name.toList = c :: cs ∧ isWordStart c = true ∧ ∀ d ∈ cs, isWordPart d = true

end Token

namespace BinOp

def kind : BinOp → Token.Kind
  | add => .plus
  | sub => .minus
  | mul => .star
  | div => .slash

theorem ofSymbol?_symbol (op : BinOp) : Token.Kind.ofSymbol? op.symbol = some op.kind := by
  cases op <;> rfl

theorem isBlank_symbol (op : BinOp) : Text.isBlank op.symbol = false := by
  cases op <;> rfl

end BinOp

namespace Tree

def chars : Tree → List Char
  | const v => (Decimal.plain.write v).toList
  | var v => v.name.toList
  | bin op l r => '(' :: (l.chars ++ [' ', op.symbol, ' '] ++ r.chars ++ [')'])
  | call name a => name.toList ++ '(' :: (a.chars ++ [')'])

def Piece.chars : Piece → List Char
  | tree t => t.chars
  | text s => s.toList

theorem toList_write (out : String) (ps : List Piece) :
    (write out ps).toList = out.toList ++ ps.flatMap Piece.chars := by
  fun_induction write out ps with
  | case1 out => simp
  | case2 out s rest ih => simp [ih, Piece.chars]
  | case3 out v rest ih => simp [ih, Piece.chars, chars]
  | case4 out v rest ih => simp [ih, Piece.chars, chars]
  | case5 out op l r rest ih =>
      rw [ih]
      simp [Piece.chars, chars]
  | case6 out name a rest ih => simp [ih, Piece.chars, chars]

theorem toList_display (t : Tree) : t.display.toList = t.chars := by
  rw [display, toList_write]
  simp [Piece.chars]

/-- The kinds of the tokens of a formula. The sign of a constant is a token of its own. -/
def kinds : Tree → List Token.Kind
  | const v => (if Decimal.isNegative v then [.minus] else []) ++ [.number (.ofFloat v.toFloat.abs)]
  | var v => [.ident v.name]
  | bin op l r => .lparen :: (l.kinds ++ op.kind :: r.kinds ++ [.rparen])
  | call name a => .ident name :: .lparen :: (a.kinds ++ [.rparen])

/-- Formulas that can be written: the constants are finite, and the functions have names. -/
def Legible : Tree → Prop
  | const v => v.toFloat.isFinite = true
  | var _ => True
  | bin _ l r => l.Legible ∧ r.Legible
  | call name a => Token.IsName name ∧ a.Legible

/-- What follows a part of a written formula. -/
def Follows (rest : List Char) : Prop := ∀ c ∈ rest.head?, c = ' ' ∨ c = ')'

namespace Follows

variable {rest : List Char}

theorem stops (h : Follows rest) : Decimal.Stops rest := by
  intro c hc
  rcases h c hc with rfl | rfl <;> decide

theorem isWordPart_eq_false (h : Follows rest) :
    ∀ c ∈ rest.head?, Token.isWordPart c = false := by
  intro c hc
  rcases h c hc with rfl | rfl <;> rfl

theorem nil : Follows [] := by
  simp [Follows]

theorem blank (rest : List Char) : Follows (' ' :: rest) := by
  simp [Follows]

theorem close (rest : List Char) : Follows (')' :: rest) := by
  simp [Follows]

end Follows

theorem reads_const {v : Double} (hv : v.toFloat.isFinite = true) {rest : List Char}
    (hrest : Follows rest) : Token.Reads (const v).chars (const v).kinds rest := by
  obtain ⟨l, d, hwrite, hplain, hvalue, hread⟩ := Decimal.exists_literal_write hv
  have hnumber := Token.Reads.number hplain hvalue hrest.stops
  rw [chars, kinds, hwrite, ← hread]
  refine Token.Reads.append ?_ hnumber
  split
  · exact .symbol rfl rfl _
  · exact .nil _

theorem reads_name {name : String} (hname : Token.IsName name) {rest : List Char}
    (hrest : ∀ c ∈ rest.head?, Token.isWordPart c = false) :
    Token.Reads name.toList [.ident name] rest := by
  obtain ⟨c, cs, hlist, hc, hcs⟩ := hname
  have hword := Token.Reads.word hc hcs hrest
  rwa [← hlist, String.ofList_toList] at hword

theorem isName_varName (v : Var) : Token.IsName v.name := by
  cases v <;> exact ⟨_, [], rfl, rfl, by simp⟩

theorem reads_chars {t : Tree} (ht : t.Legible) {rest : List Char} (hrest : Follows rest) :
    Token.Reads t.chars t.kinds rest := by
  induction t generalizing rest with
  | const v => exact reads_const ht hrest
  | var v => exact reads_name (isName_varName v) hrest.isWordPart_eq_false
  | bin op l r ihl ihr =>
      have hopen := Token.Reads.symbol (c := '(') rfl rfl
      have hclose := Token.Reads.symbol (c := ')') rfl rfl rest
      have hsign := Token.Reads.symbol op.isBlank_symbol op.ofSymbol?_symbol
      have hright := (ihr ht.2 (.close rest)).append hclose
      have hmiddle := (Token.Reads.blank _).append ((hsign _).append (.append (.blank _) hright))
      have hall := (hopen _).append ((ihl ht.1 (.blank _)).append hmiddle)
      simpa [chars, kinds] using hall
  | call name a ih =>
      have hopen := Token.Reads.symbol (c := '(') rfl rfl
      have hclose := Token.Reads.symbol (c := ')') rfl rfl rest
      have harg := (hopen _).append ((ih ht.2 (.close rest)).append hclose)
      have hparen : ∀ c ∈ (['('] ++ (a.chars ++ [')']) ++ rest).head?,
          Token.isWordPart c = false := by
        rintro c ⟨⟩
        rfl
      simpa [chars, kinds] using (reads_name ht.1 hparen).append harg

theorem eof_not_mem_kinds (t : Tree) : Token.Kind.eof ∉ t.kinds := by
  induction t with
  | const v =>
      rw [kinds]
      split <;> simp
  | var v => simp [kinds]
  | bin op l r ihl ihr =>
      have hop : op.kind ≠ .eof := by cases op <;> simp [BinOp.kind]
      simp [kinds, ihl, ihr, hop.symm]
  | call name a ih => simp [kinds, ih]

theorem exists_lex_display {t : Tree} (ht : t.Legible) :
    ∃ ts, Token.lex t.display = .ok ts ∧ ts.map Token.kind = t.kinds ++ [.eof] := by
  obtain ⟨column, found, hscan, hkinds⟩ := reads_chars ht .nil 1 #[]
  refine ⟨(found.push ⟨.eof, column⟩).toList, ?_, ?_⟩
  · rw [List.append_nil] at hscan
    rw [Token.lex, toList_display, hscan, Token.scan]
    rfl
  · rw [Array.toList_push, List.map_append]
    exact congrArg (· ++ [Token.Kind.eof]) hkinds

end Tree

end Formula
