import Formula.Proofs.Expr.Parsing
import Formula.Proofs.Token.Display
import Formula.Proofs.Tree.Value

/-!
# Reading what was written

The tokens of a written formula have a derivation: parentheses stand around every operation, and
the sign of a constant stands directly in front of its number. Its nesting is the height of the
formula and its tree is the formula itself. So what is written is read back, up to the limit of
nesting and not beyond it (`RootedGraph.display_reads_back`).
-/

namespace Formula

open Grammar

namespace Grammar

/-- An operand as a formula of its own. -/
def Derivation.single (D : Derivation (.whole .operand)) : Derivation (.whole .formula) :=
  .chain (.chain D .done) .done

/-- Two operands with a sign between them. -/
def Derivation.joined (op : BinOp) (D D' : Derivation (.whole .operand)) :
    Derivation (.whole .formula) :=
  match op with
  | .add => .chain (.chain D .done) (.more .plus (.chain D' .done) .done)
  | .sub => .chain (.chain D .done) (.more .minus (.chain D' .done) .done)
  | .mul => .chain (.chain D (.more .star D' .done)) .done
  | .div => .chain (.chain D (.more .slash D' .done)) .done

namespace Derivation

variable (op : BinOp) (D D' : Derivation (.whole .operand))

theorem yield_single : D.single.yield = D.yield := by
  simp only [single, yield, List.append_nil]
  rfl

theorem nesting_single : D.single.nesting = D.nesting := by
  simp only [single, nesting, Nat.max_zero]
  rfl

theorem yield_joined : (joined op D D').yield = D.yield ++ op.kind :: D'.yield := by
  cases op <;> simp only [joined, yield, List.append_nil] <;> rfl

theorem nesting_joined : (joined op D D').nesting = max D.nesting D'.nesting := by
  cases op <;> simp only [joined, nesting, Nat.max_zero] <;> rfl

theorem tree_joined : (joined op D D').tree = .bin op D.tree D'.tree := by
  cases op <;> rfl

end Derivation

end Grammar

namespace Tree

/-- How a formula is written. -/
def derivation : Tree → Derivation (.whole .operand)
  | const v =>
    if Decimal.isNegative v then .minus (.plain (.number (.ofFloat v.toFloat.abs)))
    else .plain (.number (.ofFloat v.toFloat.abs))
  | var v => .plain (.bare v.name)
  | bin op l r => .plain (.group (.joined op l.derivation r.derivation))
  | call name a => .plain (.call name a.derivation.single)

theorem yield_derivation (t : Tree) : t.derivation.yield = t.kinds := by
  induction t with
  | const v =>
      rw [derivation, kinds]
      split <;> rfl
  | var v => rfl
  | bin op l r ihl ihr =>
      simp only [derivation, kinds, Derivation.yield, Derivation.yield_joined, ihl, ihr]
  | call name a ih => simp only [derivation, kinds, Derivation.yield, Derivation.yield_single, ih]

theorem nesting_derivation (t : Tree) : t.derivation.nesting = t.height := by
  induction t with
  | const v =>
      rw [derivation, height]
      split <;> rfl
  | var v => rfl
  | bin op l r ihl ihr =>
      simp only [derivation, height, Derivation.nesting, Derivation.nesting_joined, ihl, ihr]
  | call name a ih =>
      simp only [derivation, height, Derivation.nesting, Derivation.nesting_single, ih]

theorem tree_derivation {t : Tree} (ht : t.Legible) : t.derivation.tree = t := by
  induction t with
  | const v =>
      have hv := Double.signed_ofFloat_abs ht
      rw [derivation]
      split
      · next hneg =>
          rw [if_pos hneg] at hv
          exact congrArg const hv
      · next hneg =>
          rw [if_neg hneg] at hv
          exact congrArg const hv
  | var v => cases v <;> rfl
  | bin op l r ihl ihr =>
      simp only [derivation, Derivation.tree, Derivation.tree_joined, ihl ht.1, ihr ht.2]
  | call name a ih => exact congrArg (call name) (ih ht.2)

/-- The names in a written formula are called, or they are variables. -/
theorem namesKnown_kinds_append (t : Tree) {w : List Token.Kind} (hw : NamesKnown w) :
    NamesKnown (t.kinds ++ w) := by
  induction t generalizing w with
  | const v =>
      rw [kinds]
      split
      · exact (hw.cons (by simp)).cons (by simp)
      · exact hw.cons (by simp)
  | var v =>
      refine namesKnown_cons.2 ⟨?_, hw⟩
      rintro name ⟨⟩
      cases v
      · exact .inr (.inl rfl)
      · exact .inr (.inr rfl)
  | bin op l r ihl ihr =>
      have hop : ∀ name, op.kind ≠ .ident name := by cases op <;> simp [BinOp.kind]
      have hright := ihr (hw.cons (k := .rparen) (by simp))
      have hleft := ihl (hright.cons hop)
      have hall := hleft.cons (k := .lparen) (by simp)
      simpa [kinds] using hall
  | call name a ih =>
      have harg := ih (hw.cons (k := .rparen) (by simp))
      have hopen := harg.cons (k := .lparen) (by simp)
      have hall : NamesKnown (.ident name :: .lparen :: (a.kinds ++ .rparen :: w)) :=
        namesKnown_cons.2 ⟨fun _ _ ↦ .inl rfl, hopen⟩
      simpa [kinds] using hall

theorem takeWhile_kinds (t : Tree) :
    (t.kinds ++ [Token.Kind.eof]).takeWhile (· ≠ Token.Kind.eof) = t.kinds := by
  rw [List.takeWhile_append_of_pos]
  · simp
  · intro k hk
    simp only [decide_eq_true_eq]
    rintro rfl
    exact t.eof_not_mem_kinds hk

end Tree

namespace RootedGraph

/-- A formula that can be written is read back from its text, as the same tree, if and only if the
limit of nesting allows it. -/
theorem display_reads_back (r : RootedGraph) (hr : r.tree.Legible) :
    ((∃ e, Expr.parse r.display = .ok e) ↔ r.tree.height ≤ 256) ∧
      ∀ e, Expr.parse r.display = .ok e → e.toGraph.tree = r.tree := by
  obtain ⟨ts, hlex, hkinds⟩ := Tree.exists_lex_display hr
  have hparse : Expr.parse r.display = Expr.ofTokens ts := by
    rw [Expr.parse, RootedGraph.display, hlex]
    rfl
  have hbody : Grammar.kinds (Expr.body ts) = r.tree.derivation.single.yield := by
    rw [Expr.kinds_body, Derivation.yield_single, Tree.yield_derivation, ← Tree.takeWhile_kinds,
      ← hkinds]
  have hnames : NamesKnown (Grammar.kinds (Expr.body ts)) := by
    have hall := r.tree.namesKnown_kinds_append namesKnown_nil
    rwa [List.append_nil, ← Tree.yield_derivation, ← Derivation.yield_single, ← hbody] at hall
  have hnesting : r.tree.derivation.single.nesting = r.tree.height := by
    rw [Derivation.nesting_single, Tree.nesting_derivation]
  rw [hparse]
  refine ⟨⟨?_, ?_⟩, ?_⟩
  · rintro ⟨e, he⟩
    obtain ⟨-, D, hyield, hle, -⟩ := Expr.exists_derivation_of_ofTokens he
    rw [Derivation.yield_injective (hyield.trans hbody), hnesting] at hle
    exact hle
  · intro hle
    exact Expr.exists_ofTokens_of_derivation hnames hbody.symm (hnesting.trans_le hle)
  · intro e he
    obtain ⟨-, D, hyield, -, htree⟩ := Expr.exists_derivation_of_ofTokens he
    rw [e.tree_toGraph, htree, Derivation.yield_injective (hyield.trans hbody)]
    exact Tree.tree_derivation hr

/-- A function that is named like a variable, of a difference from a negative zero, times itself. -/
def sharedCall : RootedGraph where
  graph := ⟨#[.const (-0), .var .y, .bin .sub 1 0, .call "x" 2, .bin .mul 3 3], by decide⟩
  root := ⟨4, by decide⟩

theorem display_reads_back_of_sharedCall :
    sharedCall.tree.Legible ∧ sharedCall.tree.height = 3 ∧
      ∃ e, Expr.parse sharedCall.display = .ok e ∧ e.toGraph.tree = sharedCall.tree := by
  have hzero : (-0 : Double).toFloat.isFinite = true := by decide
  have hargument : (Tree.bin .sub (.var .y) (.const (-0))).Legible := ⟨trivial, hzero⟩
  have hcall : (Tree.call "x" (.bin .sub (.var .y) (.const (-0)))).Legible :=
    ⟨Tree.isName_varName .x, hargument⟩
  have hlegible : sharedCall.tree.Legible := ⟨hcall, hcall⟩
  obtain ⟨hread, hsame⟩ := display_reads_back sharedCall hlegible
  obtain ⟨e, he⟩ := hread.2 (by decide)
  exact ⟨hlegible, by decide, e, he, hsame e he⟩

end RootedGraph

end Formula
