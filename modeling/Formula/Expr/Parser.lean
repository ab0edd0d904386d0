import Formula.Expr.Basic
import Formula.ReadError
import Formula.Token.Lexer

/-!
# Reading tokens as a formula

The grammar, loosest first:

* a formula is a sum: products joined by `+` and `-`, grouped to the left;
* a product is operands joined by `*` and `/`, grouped to the left;
* an operand is a signed operand, a number, a variable, a call or a formula in parentheses.

A group in parentheses, the argument of a call and a sign that is not the sign of a number are one
level deeper than what is around them. There are at most `maxNesting` levels, and the parsers are
defined by recursion on the levels that are left.
-/

namespace Formula.Expr

def maxNesting : Nat := 256

/-- A parser reads a formula off the front of the tokens and returns the tokens behind it. -/
abbrev Parser := List Token → Except ReadError (Expr × List Token)

structure Extent where
  length : Nat
  endColumn : Nat

def Extent.columnOf (x : Extent) : List Token → Nat
  | [] => x.endColumn
  | t :: _ => t.column

def refuse (x : Extent) (what : Malformed) (ts : List Token) : ReadError :=
  .malformed (x.columnOf ts) what

def closed (x : Extent) : List Token → Except ReadError (List Token)
  | ⟨.rparen, _⟩ :: ts => .ok ts
  | ts => .error (refuse x .expectedClose ts)

structure Level where
  operand : Parser
  formula : Parser

/-- An operand without sign. Groups and arguments are read one level deeper. -/
def primary (x : Extent) (inner : Level) : Parser
  | ⟨.number v, _⟩ :: ts => .ok (.number v, ts)
  | ⟨.ident name, _⟩ :: ⟨.lparen, _⟩ :: ts => do
    let (arg, ts) ← inner.formula ts
    let ts ← closed x ts
    return (.call name arg, ts)
  | ⟨.ident name, _⟩ :: ts =>
    match Var.ofName? name with
    | some v => .ok (.var v, ts)
    | none => .error (.unknownVariable name)
  | ⟨.lparen, _⟩ :: ts => do
    let (e, ts) ← inner.formula ts
    let ts ← closed x ts
    return (e, ts)
  | ts => .error (refuse x .expectedOperand ts)

/-- A signed operand. The sign of a number belongs to the number; what any other sign stands before
is read one level deeper. -/
def signed (x : Extent) (inner : Level) : Parser
  | ⟨.minus, _⟩ :: ⟨.number v, _⟩ :: ts => .ok (.number (-v), ts)
  | ⟨.minus, _⟩ :: ts => do
    let (e, ts) ← inner.operand ts
    return (.neg e, ts)
  | ts => primary x inner ts

def additive : Token.Kind → Option BinOp
  | .plus => some .add
  | .minus => some .sub
  | _ => none

def multiplicative : Token.Kind → Option BinOp
  | .star => some .mul
  | .slash => some .div
  | _ => none

/-- Goes on with what is joined to `left`. Each round takes an operator off the tokens. -/
def chainFrom (ops : Token.Kind → Option BinOp) (part : Parser) :
    Nat → Expr → List Token → Except ReadError (Expr × List Token)
  | rounds + 1, left, t :: ts =>
    match ops t.kind with
    | none => .ok (left, t :: ts)
    | some op =>
      match part ts with
      | .error e => .error e
      | .ok (right, rest) => chainFrom ops part rounds (.bin op left right) rest
  | _, left, ts => .ok (left, ts)

/-- Parts joined by operators, grouped to the left. There are fewer operators than tokens. -/
def chain (x : Extent) (ops : Token.Kind → Option BinOp) (part : Parser) : Parser := fun ts ↦
  match part ts with
  | .error e => .error e
  | .ok (left, rest) => chainFrom ops part x.length left rest

def Level.around (x : Extent) (inner : Level) : Level where
  operand := signed x inner
  formula := chain x additive (chain x multiplicative (signed x inner))

def Level.tooDeep (x : Extent) : Level where
  operand := fun ts ↦ .error (refuse x (.nestedTooDeep maxNesting) ts)
  formula := fun ts ↦ .error (refuse x (.nestedTooDeep maxNesting) ts)

/-- The parsers when `n` levels, this one included, are left. -/
def level (x : Extent) : Nat → Level
  | 0 => .tooDeep x
  | n + 1 => .around x (level x n)

def body (ts : List Token) : List Token := ts.takeWhile fun t ↦ !t.kind.isEof

/-- The column of the end: that of the token that marks it, else that of the last token. -/
def endColumn (ts : List Token) : Nat :=
  match ts.find? fun t ↦ t.kind.isEof with
  | some t => t.column
  | none => (ts.getLast?.map Token.column).getD 1

def ofTokens (ts : List Token) : Except ReadError Expr :=
  let ws := body ts
  let x : Extent := ⟨ws.length, endColumn ts⟩
  if ws.isEmpty then .error (refuse x .emptyFormula ws)
  else
    match (level x (maxNesting + 1)).formula ws with
    | .error e => .error e
    | .ok (e, []) => .ok e
    | .ok (_, rest) => .error (refuse x .trailingInput rest)

def parse (text : String) : Except ReadError Expr := do
  let ts ← Token.lex text
  ofTokens ts

end Formula.Expr
