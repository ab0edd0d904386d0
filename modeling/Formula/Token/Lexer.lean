import Formula.Decimal.Literal
import Formula.ReadError
import Formula.Text.Blank
import Formula.Text.Letter
import Formula.Text.Numeral
import Formula.Token.Basic

/-!
# Cutting a text into tokens

Blank characters separate tokens. Numbers and names are as long as they can be. Columns count
characters, and the end of the text is a token of its own.
-/

namespace Formula.Token

def isWordStart (c : Char) : Bool := c = '_' || Text.isLetter c

def isWordPart (c : Char) : Bool := c = '_' || Text.isLetter c || Text.isNumeral c

def isNumberStart (c : Char) : Bool := c = '.' || c.isDigit

/-- The token that starts with `c`, and how many of the characters after `c` belong to it. -/
def lexeme (c : Char) (cs : List Char) : Except Malformed (Kind × Nat) :=
  match Kind.ofSymbol? c with
  | some kind => .ok (kind, 0)
  | none =>
    if isNumberStart c then
      let literal := (Decimal.Literal.scan (c :: cs)).1
      match literal.value? with
      | some d => .ok (.number d.toDouble, literal.text.length - 1)
      | none => .error (.invalidNumber (String.ofList literal.text))
    else if isWordStart c then
      let tail := cs.takeWhile isWordPart
      .ok (.ident (String.ofList (c :: tail)), tail.length)
    else .error (.unexpectedCharacter c)

/-- The tokens of a text that starts at `column`, behind those found already. -/
def scan (column : Nat) (found : Array Token) : List Char → Except ReadError (Array Token)
  | [] => .ok (found.push ⟨.eof, column⟩)
  | c :: cs =>
    if Text.isBlank c then scan (column + 1) found cs
    else
      match lexeme c cs with
      | .error what => .error (.malformed column what)
      | .ok (kind, n) => scan (column + 1 + n) (found.push ⟨kind, column⟩) (cs.drop n)
termination_by cs => cs.length
decreasing_by
  · simp
  · simp only [List.length_drop, List.length_cons]
    omega

def lex (text : String) : Except ReadError (List Token) :=
  (scan 1 #[] text.toList).map Array.toList

end Formula.Token
