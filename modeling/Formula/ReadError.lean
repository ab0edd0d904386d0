/-!
# Errors in the text of a formula

A text is refused either because it has no meaning from some column on, or because it uses a
variable that does not exist.
-/

namespace Formula

inductive Malformed where
  | unexpectedCharacter (c : Char)
  | invalidNumber (text : String)
  | emptyFormula
  | trailingInput
  | expectedOperand
  | expectedClose
  | nestedTooDeep (limit : Nat)
deriving DecidableEq, Repr

def Malformed.message : Malformed → String
  | unexpectedCharacter c => "unexpected character '" ++ c.toString ++ "'"
  | invalidNumber text => "invalid number '" ++ text ++ "'"
  | emptyFormula => "empty expression"
  | trailingInput => "unexpected trailing input"
  | expectedOperand => "expected expression"
  | expectedClose => "expected RParen"
  | nestedTooDeep limit => s!"expression nested deeper than {limit} levels"

inductive SymbolKind where
  | var
  | func
deriving DecidableEq, Repr

namespace SymbolKind

def name : SymbolKind → String
  | var => "variable"
  | func => "function"

def undefined (kind : SymbolKind) (symbol : String) : String :=
  "undefined " ++ kind.name ++ ": " ++ symbol

end SymbolKind

/-- Why a text is no formula. Columns count characters from one. -/
inductive ReadError where
  | malformed (column : Nat) (what : Malformed)
  | unknownVariable (name : String)
deriving DecidableEq, Repr

namespace ReadError

def atColumn (column : Nat) (what : String) : String :=
  s!"syntax error at column {column}: " ++ what

def message : ReadError → String
  | malformed column what => atColumn column what.message
  | unknownVariable name => SymbolKind.var.undefined name

end ReadError

end Formula
