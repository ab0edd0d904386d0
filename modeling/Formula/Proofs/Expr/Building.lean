import Formula.Expr.Parser
import Formula.Proofs.Graph.Checked

/-!
# Reading straight into a graph

The parsers are written here once more with the graph that grows while they read. A node is pushed
as soon as its last part has been read, and a push fails if an operand does not stand earlier. No
push fails, and what comes out is the expression that the parsers read, laid out in the order of
`Expr.addTo` (`build_eq`).
-/

namespace Formula.Expr

/-- Why nothing is built. -/
inductive BuildError where
  | read (e : ReadError)
  | push (f : Graph.Fault)

/-- A graph and an index in it, and the tokens that are left. -/
abbrev Built := Except BuildError ((Graph × Nat) × List Token)

/-- A builder reads a formula off the front of the tokens and adds its nodes to a graph. -/
abbrev Builder := List Token → Graph → Built

namespace Builder

def push (n : Node Nat) : Builder := fun ts g ↦
  match g.push n with
  | .error f => .error (.push f)
  | .ok h => .ok ((h, g.size), ts)

/-- The builders for one level of nesting. -/
structure Level where
  operand : Builder
  formula : Builder

def primary (x : Extent) (inner : Level) : Builder
  | ⟨.number v, _⟩ :: ts, g => push (.const v) ts g
  | ⟨.ident name, _⟩ :: ⟨.lparen, _⟩ :: ts, g => do
    let ((g, arg), ts) ← inner.formula ts g
    let ts ← (closed x ts).mapError .read
    push (.call name arg) ts g
  | ⟨.ident name, _⟩ :: ts, g =>
    match Var.ofName? name with
    | some v => push (.var v) ts g
    | none => .error (.read (.unknownVariable name))
  | ⟨.lparen, _⟩ :: ts, g => do
    let (out, ts) ← inner.formula ts g
    let ts ← (closed x ts).mapError .read
    return (out, ts)
  | ts, _ => .error (.read (refuse x .expectedOperand ts))

/-- The operand of a sign comes before the factor that stands for the sign. -/
def signed (x : Extent) (inner : Level) : Builder
  | ⟨.minus, _⟩ :: ⟨.number v, _⟩ :: ts, g => push (.const (-v)) ts g
  | ⟨.minus, _⟩ :: ts, g => do
    let ((g, operand), ts) ← inner.operand ts g
    let ((g, factor), ts) ← push (.const (-1)) ts g
    push (.bin .mul factor operand) ts g
  | ts, g => primary x inner ts g

def chainFrom (ops : Token.Kind → Option BinOp) (part : Builder) : Nat → Nat → Builder
  | rounds + 1, left, t :: ts, g =>
    match ops t.kind with
    | none => .ok ((g, left), t :: ts)
    | some op => do
      let ((g, right), ts) ← part ts g
      let ((g, both), ts) ← push (.bin op left right) ts g
      chainFrom ops part rounds both ts g
  | _, left, ts, g => .ok ((g, left), ts)

def chain (x : Extent) (ops : Token.Kind → Option BinOp) (part : Builder) : Builder := fun ts g ↦ do
  let ((g, left), ts) ← part ts g
  chainFrom ops part x.length left ts g

def Level.around (x : Extent) (inner : Level) : Level where
  operand := signed x inner
  formula := chain x additive (chain x multiplicative (signed x inner))

def Level.tooDeep (x : Extent) : Level where
  operand := fun ts _ ↦ .error (.read (refuse x (.nestedTooDeep maxNesting) ts))
  formula := fun ts _ ↦ .error (.read (refuse x (.nestedTooDeep maxNesting) ts))

def level (x : Extent) : Nat → Level
  | 0 => .tooDeep x
  | n + 1 => .around x (level x n)

end Builder

/-- Reads tokens, up to the end, into an empty graph. -/
def build (ts : List Token) : Except BuildError (Graph × Nat) :=
  let ws := body ts
  let x : Extent := ⟨ws.length, endColumn ts⟩
  if ws.isEmpty then .error (.read (refuse x .emptyFormula ws))
  else
    match (Builder.level x (maxNesting + 1)).formula ws .empty with
    | .error e => .error e
    | .ok (out, []) => .ok out
    | .ok (_, rest) => .error (.read (refuse x .trailingInput rest))

namespace Builder

variable {g : Graph}

/-- What a builder makes of what a parser reads. -/
def outcome (g : Graph) : Except ReadError (Expr × List Token) → Built
  | .error e => .error (.read e)
  | .ok (e, rest) => .ok ((e.addTo g).bare, rest)

/-- The builder lays out what the parser reads. -/
def Follows (B : Builder) (P : Parser) : Prop := ∀ ts g, B ts g = outcome g (P ts)

theorem push_eq {h : Graph} (hgh : g.size ≤ h.size) {n : Node Nat} (hn : n.Below h.size)
    (ts : List Token) : push n ts h = .ok ((Graph.Extension.ofNode h hgh n hn).bare, ts) := by
  rw [push, Graph.push, dif_pos hn]
  rfl

theorem push_call (e : Graph.Extension g) (name : String) (ts : List Token) :
    push (.call name e.bare.2) ts e.bare.1 = .ok ((e.call name).bare, ts) :=
  push_eq e.2 (Node.below_call name e.1.root.2) ts

theorem push_bin (e : Graph.Extension g) (op : BinOp)
    (next : (h : Graph) → g.size ≤ h.size → Graph.Extension h) (ts : List Token) :
    push (.bin op e.bare.2 (next e.bare.1 e.2).bare.2) ts (next e.bare.1 e.2).bare.1 =
      .ok ((e.bin op next).bare, ts) := by
  have hle := (next e.bare.1 e.2).2
  exact push_eq (e.2.trans hle)
    (Node.below_bin op (e.1.root.2.trans_le hle) (next e.bare.1 e.2).1.root.2) ts

theorem push_scale (e : Graph.Extension g) (factor : Double) (ts : List Token) :
    (do
      let ((g, i), ts) ← push (.const factor) ts e.bare.1
      push (.bin .mul i e.bare.2) ts g) = .ok ((e.scale factor).bare, ts) := by
  have hle := (Graph.Extension.const e.1.graph factor).2
  rw [push_eq le_rfl (Node.below_const factor _)]
  exact push_eq (e.2.trans hle)
    (Node.below_bin .mul (Graph.Extension.const e.1.graph factor).1.root.2
      (e.1.root.2.trans_le hle)) ts

variable {x : Extent} {inner : Level} {inner' : Expr.Level}

/-- A formula in parentheses, and what is pushed once they are closed. -/
theorem enclosed_eq (h : inner.formula.Follows inner'.formula) (f : Expr → Expr)
    (finish : Graph × Nat → List Token → Built)
    (hfinish : ∀ e rest, finish (e.addTo g).bare rest = .ok (((f e).addTo g).bare, rest))
    (ts : List Token) :
    (do
      let (out, ts) ← inner.formula ts g
      let ts ← (closed x ts).mapError .read
      finish out ts) =
    outcome g (do
      let (e, ts) ← inner'.formula ts
      let ts ← closed x ts
      return (f e, ts)) := by
  rw [h ts g]
  cases inner'.formula ts with
  | error err => rfl
  | ok read =>
      obtain ⟨e, rest⟩ := read
      simp only [outcome, bind, Except.bind]
      cases closed x rest with
      | error err => rfl
      | ok rest' => exact hfinish e rest'

theorem primary_follows (h : inner.formula.Follows inner'.formula) :
    (primary x inner).Follows (Expr.primary x inner') := by
  intro ts g
  fun_cases Expr.primary x inner' ts with
  | case1 v c ts => exact push_eq le_rfl (Node.below_const v _) ts
  | case2 name c c' ts =>
      exact enclosed_eq h (.call name) (fun out ts ↦ push (.call name out.2) ts out.1)
        (fun e rest ↦ push_call (e.addTo g) name rest) ts
  | case3 name c ts hnot v hv =>
      rw [primary, hv]
      · exact push_eq le_rfl (Node.below_var v _) ts
      · exact hnot
  | case4 name c ts hnot hv =>
      rw [primary, hv]
      · rfl
      · exact hnot
  | case5 c ts =>
      exact enclosed_eq h id (fun out ts ↦ .ok (out, ts)) (fun _ _ ↦ rfl) ts
  | case6 ts h₁ h₂ h₃ h₄ =>
      rw [primary]
      · rfl
      all_goals assumption

theorem signed_follows (hformula : inner.formula.Follows inner'.formula)
    (hoperand : inner.operand.Follows inner'.operand) :
    (signed x inner).Follows (Expr.signed x inner') := by
  intro ts g
  fun_cases Expr.signed x inner' ts with
  | case1 c v c' ts => exact push_eq le_rfl (Node.below_const (-v) _) ts
  | case2 c ts hnot =>
      rw [signed, hoperand ts g]
      · cases inner'.operand ts with
        | error err => rfl
        | ok read => exact push_scale (read.1.addTo g) (-1) read.2
      · exact hnot
  | case3 ts h₁ h₂ =>
      rw [signed]
      · exact primary_follows hformula ts g
      all_goals assumption

theorem chainFrom_eq {ops : Token.Kind → Option BinOp} {B : Builder} {P : Parser}
    (h : B.Follows P) (rounds : Nat) (left : Expr) (ts : List Token) (g : Graph) :
    chainFrom ops B rounds (left.addTo g).bare.2 ts (left.addTo g).bare.1 =
      outcome g (Expr.chainFrom ops P rounds left ts) := by
  induction rounds generalizing left ts with
  | zero => cases ts <;> rfl
  | succ rounds ih =>
      cases ts with
      | nil => rfl
      | cons t ts =>
          rw [chainFrom, Expr.chainFrom]
          cases ops t.kind with
          | none => rfl
          | some op =>
              simp only [h ts]
              cases P ts with
              | error err => rfl
              | ok read =>
                  obtain ⟨right, rest⟩ := read
                  have hpush := push_bin (left.addTo g) op (fun h _ ↦ right.addTo h) rest
                  simp only [outcome, bind, Except.bind]
                  rw [hpush]
                  exact ih (.bin op left right) rest

theorem chain_follows {ops : Token.Kind → Option BinOp} {B : Builder} {P : Parser}
    (h : B.Follows P) : (chain x ops B).Follows (Expr.chain x ops P) := by
  intro ts g
  rw [chain, Expr.chain, h ts g]
  cases P ts with
  | error err => rfl
  | ok read => exact chainFrom_eq h x.length read.1 read.2 g

theorem level_follows (x : Extent) (n : Nat) :
    (level x n).operand.Follows (Expr.level x n).operand ∧
      (level x n).formula.Follows (Expr.level x n).formula := by
  induction n with
  | zero => exact ⟨fun _ _ ↦ rfl, fun _ _ ↦ rfl⟩
  | succ n ih =>
      have hoperand : (signed x (level x n)).Follows (Expr.signed x (Expr.level x n)) :=
        signed_follows ih.2 ih.1
      exact ⟨hoperand, chain_follows (chain_follows hoperand)⟩

end Builder

/-- No push fails, whatever the tokens: the graph that is built is the one of the expression that is
read. -/
theorem build_eq (ts : List Token) :
    build ts =
      ((ofTokens ts).mapError .read).map fun e ↦ (e.toGraph.graph, e.toGraph.root.val) := by
  rw [build, ofTokens]
  split
  · rfl
  · rw [(Builder.level_follows _ _).2 (body ts) .empty]
    cases (level _ (maxNesting + 1)).formula (body ts) with
    | error err => rfl
    | ok read =>
        obtain ⟨e, rest⟩ := read
        cases rest <;> rfl

end Formula.Expr
