import Formula.Token.Basic
import Formula.Tree
import Mathlib.Data.List.Basic

/-!
# The grammar of formulas

```
formula := product (('+' | '-') product)*
product := operand (('*' | '/') operand)*
operand := '-' operand | primary
primary := number | name '(' formula ')' | name | '(' formula ')'
```

A `Derivation` is a parse tree of this grammar. It has the tokens that it derives, the depth of its
nesting and the tree that it stands for. The grammar is unambiguous: tokens have at most one
derivation (`Derivation.yield_injective`).
-/

namespace Formula.Grammar

open Token

/-- How tightly an operator binds. -/
inductive Precedence where
  | sum
  | product

/-- The operators that join the parts of a sum or of a product. -/
inductive Op : Precedence → Type
  | plus : Op .sum
  | minus : Op .sum
  | star : Op .product
  | slash : Op .product

namespace Op

def kind {p : Precedence} : Op p → Kind
  | plus => .plus
  | minus => .minus
  | star => .star
  | slash => .slash

def binOp {p : Precedence} : Op p → BinOp
  | plus => .add
  | minus => .sub
  | star => .mul
  | slash => .div

theorem kind_injective {p : Precedence} {o o' : Op p} (h : o.kind = o'.kind) : o = o' := by
  cases o <;> cases o' <;> trivial

theorem kind_ne_ident {p : Precedence} (o : Op p) (name : String) : o.kind ≠ .ident name := by
  cases o <;> simp [kind]

end Op

inductive Rule where
  | chain (p : Precedence)
  | operand
  | primary

abbrev Rule.formula : Rule := chain .sum

/-- What the operators of a precedence join. -/
def Precedence.part : Precedence → Rule
  | sum => .chain .product
  | product => .operand

/-- A whole text of a rule, or what comes behind the first part of a sum or product. -/
inductive Phrase where
  | whole (r : Rule)
  | tail (p : Precedence)

inductive Derivation : Phrase → Type
  | chain {p : Precedence} (first : Derivation (.whole p.part)) (rest : Derivation (.tail p)) :
      Derivation (.whole (.chain p))
  | done {p : Precedence} : Derivation (.tail p)
  | more {p : Precedence} (op : Op p) (next : Derivation (.whole p.part))
      (rest : Derivation (.tail p)) : Derivation (.tail p)
  | minus (operand : Derivation (.whole .operand)) : Derivation (.whole .operand)
  | plain (primary : Derivation (.whole .primary)) : Derivation (.whole .operand)
  | number (value : Double) : Derivation (.whole .primary)
  | call (name : String) (arg : Derivation (.whole .formula)) : Derivation (.whole .primary)
  | bare (name : String) : Derivation (.whole .primary)
  | group (formula : Derivation (.whole .formula)) : Derivation (.whole .primary)

/-- The number that comes next. -/
def number? : List Kind → Option Double
  | .number v :: _ => some v
  | _ => none

/-- A phrase behind a first part takes the tree of what is to its left. -/
abbrev Phrase.Meaning : Phrase → Type
  | whole _ => Tree
  | tail _ => Tree → Tree

namespace Derivation

@[simp] def yield {ph : Phrase} : Derivation ph → List Kind
  | chain first rest => first.yield ++ rest.yield
  | done => []
  | more op next rest => op.kind :: (next.yield ++ rest.yield)
  | minus operand => .minus :: operand.yield
  | plain primary => primary.yield
  | number v => [.number v]
  | call name arg => .ident name :: .lparen :: (arg.yield ++ [.rparen])
  | bare name => [.ident name]
  | group formula => .lparen :: (formula.yield ++ [.rparen])

/-- The largest number of levels around a token. A group in parentheses is a level, and so are the
argument of a call and what is behind a sign that is not directly in front of a number. -/
@[simp] def nesting {ph : Phrase} : Derivation ph → Nat
  | chain first rest => max first.nesting rest.nesting
  | done => 0
  | more _ next rest => max next.nesting rest.nesting
  | minus operand =>
    match number? operand.yield with
    | some _ => operand.nesting
    | none => operand.nesting + 1
  | plain primary => primary.nesting
  | number _ => 0
  | call _ arg => arg.nesting + 1
  | bare _ => 0
  | group formula => formula.nesting + 1

/-- The tree that a derivation stands for. Operators group to the left, a sign directly in front of
a number makes it negative, and any other sign is a product with minus one. -/
@[simp] def tree {ph : Phrase} : Derivation ph → ph.Meaning
  | chain first rest => rest.tree first.tree
  | done => fun left ↦ left
  | more op next rest => fun left ↦ rest.tree (.bin op.binOp left next.tree)
  | minus operand =>
    match number? operand.yield with
    | some v => .const (-v)
    | none => .bin .mul (.const (-1)) operand.tree
  | plain primary => primary.tree
  | number v => .const v
  | call name arg => .call name arg.tree
  | bare name => .var (if name = "x" then .x else .y)
  | group formula => formula.tree

end Derivation

/-- Each name that has no parenthesis behind it is `x` or `y`. -/
def NamesKnown (w : List Kind) : Prop :=
  ∀ name rest, .ident name :: rest <:+ w → rest.head? = some .lparen ∨ name = "x" ∨ name = "y"

theorem namesKnown_nil : NamesKnown [] := by
  intro name rest h
  simp at h

theorem namesKnown_cons {k : Kind} {w : List Kind} :
    NamesKnown (k :: w) ↔
      (∀ name, k = .ident name → w.head? = some .lparen ∨ name = "x" ∨ name = "y") ∧
        NamesKnown w := by
  constructor
  · intro h
    exact ⟨fun name hk ↦ h name w (hk ▸ List.suffix_rfl),
      fun name rest hrest ↦ h name rest (hrest.trans (List.suffix_cons k w))⟩
  · rintro ⟨hk, hw⟩ name rest hrest
    rcases List.suffix_cons_iff.1 hrest with heq | hrest
    · cases heq
      exact hk name rfl
    · exact hw name rest hrest

theorem NamesKnown.cons {k : Kind} {w : List Kind} (h : NamesKnown w)
    (hk : ∀ name, k ≠ .ident name) : NamesKnown (k :: w) :=
  namesKnown_cons.2 ⟨fun name heq ↦ absurd heq (hk name), h⟩

theorem NamesKnown.of_append {v w : List Kind} (h : NamesKnown (v ++ w)) : NamesKnown w :=
  fun name rest hrest ↦ h name rest (hrest.trans (List.suffix_append v w))

/-- The tokens that can go on with a text of a rule. -/
def Rule.continuations : Rule → List Kind
  | chain .sum => [.plus, .minus, .star, .slash, .lparen]
  | chain .product => [.star, .slash, .lparen]
  | operand | primary => [.lparen]

/-- A text of the rule ends where these tokens start. -/
def Rule.Ends (r : Rule) (w : List Kind) : Prop := ∀ k ∈ w.head?, k ∉ r.continuations

def Phrase.rule : Phrase → Rule
  | whole r => r
  | tail p => .chain p

section Ends

variable {p : Precedence} {w : List Kind}

theorem Rule.ends_nil (r : Rule) : r.Ends [] := by
  simp [Rule.Ends]

theorem Rule.ends_rparen (r : Rule) (w : List Kind) : r.Ends (.rparen :: w) := by
  rcases r with (_ | _) | _ | _ <;> simp [Rule.Ends, Rule.continuations]

theorem Rule.Ends.head?_ne_lparen {r : Rule} (h : r.Ends w) : w.head? ≠ some .lparen := by
  intro hw
  apply h _ hw
  rcases r with (_ | _) | _ | _ <;> simp [Rule.continuations]

theorem Rule.Ends.ne_op_cons (h : (Rule.chain p).Ends w) (o : Op p) (w' : List Kind) :
    w ≠ o.kind :: w' := by
  rintro rfl
  apply h o.kind rfl
  cases o <;> simp [Rule.continuations, Op.kind]

theorem Rule.Ends.part (h : (Rule.chain p).Ends w) : p.part.Ends w := by
  intro k hk hmem
  apply h k hk
  cases p <;> simp_all [Rule.continuations, Precedence.part]

theorem Op.ends_part (o : Op p) (w : List Kind) : p.part.Ends (o.kind :: w) := by
  cases o <;> simp [Rule.Ends, Rule.continuations, Precedence.part, Op.kind]

theorem Derivation.ends_part (D : Derivation (.tail p)) (h : (Rule.chain p).Ends w) :
    p.part.Ends (D.yield ++ w) := by
  cases D with
  | done => exact h.part
  | more o next rest => exact o.ends_part _

end Ends

namespace Derivation

theorem yield_append_ne_minus_cons (D : Derivation (.whole .primary)) (w w' : List Kind) :
    D.yield ++ w ≠ .minus :: w' := by
  cases D <;> simp [yield]

theorem number?_yield_append (D : Derivation (.whole .operand)) (w : List Kind) :
    number? (D.yield ++ w) = number? D.yield := by
  cases D with
  | minus D => rfl
  | plain D => cases D <;> rfl

/-- Only a number starts with a number. -/
theorem eq_number_of_number? {D : Derivation (.whole .operand)} {v : Double}
    (h : number? D.yield = some v) : D = .plain (.number v) := by
  cases D with
  | minus D => simp [yield, number?] at h
  | plain D => cases D <;> simp_all [yield, number?]

/-- Tokens have one derivation, and it has one end. -/
theorem eq_of_yield_append {ph : Phrase} {D D' : Derivation ph} {w w' : List Kind}
    (h : D.yield ++ w = D'.yield ++ w') (hw : ph.rule.Ends w) (hw' : ph.rule.Ends w') :
    D = D' ∧ w = w' := by
  induction D generalizing w w' with
  | chain first rest ihFirst ihRest =>
      cases D' with
      | chain first' rest' =>
          simp only [yield, List.append_assoc] at h
          obtain ⟨rfl, htail⟩ := ihFirst h (rest.ends_part hw) (rest'.ends_part hw')
          obtain ⟨rfl, rfl⟩ := ihRest htail hw hw'
          exact ⟨rfl, rfl⟩
  | done =>
      cases D' with
      | done => exact ⟨rfl, h⟩
      -- What is behind the shorter tail would start with an operator.
      | more o' next' rest' => exact absurd h (hw.ne_op_cons o' _)
  | more o next rest ihNext ihRest =>
      cases D' with
      | done => exact absurd h.symm (hw'.ne_op_cons o _)
      | more o' next' rest' =>
          simp only [yield, List.cons_append, List.append_assoc, List.cons.injEq] at h
          obtain ⟨hkind, h⟩ := h
          obtain rfl := Op.kind_injective hkind
          obtain ⟨rfl, htail⟩ := ihNext h (rest.ends_part hw) (rest'.ends_part hw')
          obtain ⟨rfl, rfl⟩ := ihRest htail hw hw'
          exact ⟨rfl, rfl⟩
  | minus D ih =>
      cases D' with
      | minus D' =>
          simp only [yield, List.cons_append, List.cons.injEq, true_and] at h
          obtain ⟨rfl, rfl⟩ := ih h hw hw'
          exact ⟨rfl, rfl⟩
      | plain D' => exact absurd h.symm (D'.yield_append_ne_minus_cons w' _)
  | plain D ih =>
      cases D' with
      | minus D' => exact absurd h (D.yield_append_ne_minus_cons w _)
      | plain D' =>
          obtain ⟨rfl, rfl⟩ := ih h hw hw'
          exact ⟨rfl, rfl⟩
  | number v => cases D' <;> simp_all [yield]
  | call name arg ih =>
      cases D' with
      | call name' arg' =>
          simp only [yield, List.cons_append, List.append_assoc, List.cons.injEq, Kind.ident.injEq,
            true_and] at h
          obtain ⟨rfl, h⟩ := h
          obtain ⟨rfl, hclose⟩ := ih h (Rule.ends_rparen _ _) (Rule.ends_rparen _ _)
          exact ⟨rfl, (List.cons.inj hclose).2⟩
      | bare name' =>
          simp only [yield, List.cons_append, List.nil_append, List.cons.injEq] at h
          exact absurd (by rw [← h.2]; rfl) hw'.head?_ne_lparen
      | _ => simp [yield] at h
  | bare name =>
      cases D' with
      | bare name' =>
          simp only [yield, List.cons_append, List.nil_append, List.cons.injEq,
            Kind.ident.injEq] at h
          obtain ⟨rfl, rfl⟩ := h
          exact ⟨rfl, rfl⟩
      | call name' arg' =>
          simp only [yield, List.cons_append, List.nil_append, List.cons.injEq] at h
          exact absurd (by rw [h.2]; rfl) hw.head?_ne_lparen
      | _ => simp [yield] at h
  | group D ih =>
      cases D' with
      | group D' =>
          simp only [yield, List.cons_append, List.append_assoc, List.cons.injEq, true_and] at h
          obtain ⟨rfl, hclose⟩ := ih h (Rule.ends_rparen _ _) (Rule.ends_rparen _ _)
          exact ⟨rfl, (List.cons.inj hclose).2⟩
      | _ => simp [yield] at h

theorem yield_injective {r : Rule} : Function.Injective (@yield (.whole r)) := by
  intro D D' h
  have happend : D.yield ++ [] = D'.yield ++ [] := by rw [h]
  exact (eq_of_yield_append happend r.ends_nil r.ends_nil).1

end Derivation

end Formula.Grammar
