import Formula.Double

/-!
# Variables and operators

A formula has two inputs, `x` and `y`, and four operators, each the double-precision operation.
-/

namespace Formula

inductive Var where
  | x
  | y
deriving DecidableEq, Repr

namespace Var

def name : Var → String
  | x => "x"
  | y => "y"

def ofName? : String → Option Var
  | "x" => some x
  | "y" => some y
  | _ => none

theorem ofName?_name (v : Var) : ofName? v.name = some v := by
  cases v <;> rfl

end Var

inductive BinOp where
  | add
  | sub
  | mul
  | div
deriving DecidableEq, Repr

namespace BinOp

def symbol : BinOp → Char
  | add => '+'
  | sub => '-'
  | mul => '*'
  | div => '/'

def apply : BinOp → Double → Double → Double
  | add, a, b => a + b
  | sub, a, b => a - b
  | mul, a, b => a * b
  | div, a, b => a / b

end BinOp

end Formula
