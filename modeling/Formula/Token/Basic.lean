import Formula.Double

/-!
# Tokens

A token is a number, a name, an operator sign, a parenthesis or the end of the text, together with
the column it starts at.
-/

namespace Formula

namespace Token

inductive Kind where
  | number (value : Double)
  | ident (name : String)
  | plus
  | minus
  | star
  | slash
  | lparen
  | rparen
  | eof
deriving DecidableEq

namespace Kind

def ofSymbol? : Char → Option Kind
  | '+' => some plus
  | '-' => some minus
  | '*' => some star
  | '/' => some slash
  | '(' => some lparen
  | ')' => some rparen
  | _ => none

def isEof : Kind → Bool
  | eof => true
  | _ => false

end Kind

end Token

/-- A token and the column of its first character. -/
structure Token where
  kind : Token.Kind
  column : Nat
deriving DecidableEq

end Formula
