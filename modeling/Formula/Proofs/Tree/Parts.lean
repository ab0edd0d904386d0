import Formula.Proofs.Tree.Fold

/-!
# The parts of a formula

The parts of a formula are the subtrees of its tree, each as often as it occurs. `Tree.count` counts
those with a property. Folding puts constants in the place of operations and calls, so what counts
for operations or calls and not for constants gets no larger by it (`Tree.count_fold_le`).
-/

namespace Formula

theorem countP_cons_toNat {α : Type} (p : α → Bool) (x : α) (xs : List α) :
    (x :: xs).countP p = (p x).toNat + xs.countP p := by
  cases hp : p x <;> simp [hp, Nat.add_comm]

theorem sum_map_toNat {α : Type} (p : α → Bool) (xs : List α) :
    (xs.map fun x ↦ (p x).toNat).sum = xs.countP p := by
  induction xs with
  | nil => rfl
  | cons x xs ih => rw [List.map_cons, List.sum_cons, ih, countP_cons_toNat]

namespace Tree

/-- The subtrees, each as often as it occurs. -/
def parts : Tree → List Tree
  | const v => [const v]
  | var v => [var v]
  | bin op l r => bin op l r :: (l.parts ++ r.parts)
  | call name a => call name a :: a.parts

/-- How many parts have a property. -/
def count (q : Tree → Bool) (e : Tree) : Nat := e.parts.countP q

def isConst : Tree → Bool
  | const _ => true
  | _ => false

def isVar : Tree → Bool
  | var _ => true
  | _ => false

def isBin : Tree → Bool
  | bin _ _ _ => true
  | _ => false

def isCall : Tree → Bool
  | call _ _ => true
  | _ => false

section Count

variable (q : Tree → Bool)

@[simp] theorem count_const (v : Double) : (const v).count q = (q (const v)).toNat :=
  countP_cons_toNat q (const v) []

@[simp] theorem count_var (v : Var) : (var v).count q = (q (var v)).toNat :=
  countP_cons_toNat q (var v) []

@[simp] theorem count_bin (op : BinOp) (l r : Tree) :
    (bin op l r).count q = (q (bin op l r)).toNat + (l.count q + r.count q) := by
  rw [count, parts, countP_cons_toNat, List.countP_append]
  rfl

@[simp] theorem count_call (name : String) (a : Tree) :
    (call name a).count q = (q (call name a)).toNat + a.count q :=
  countP_cons_toNat q (call name a) a.parts

end Count

/-- Fewer parts have a stronger property. -/
theorem count_mono {q q' : Tree → Bool} (h : ∀ e, q e = true → q' e = true) (e : Tree) :
    e.count q ≤ e.count q' :=
  List.countP_mono_left fun e _ ↦ h e

variable {q : Tree → Bool}

/-- Where a constant does not count, and an operation or a call whatever its operands are, folding
leaves no more to count. -/
theorem count_fold_le (hconst : ∀ v, q (const v) = false)
    (hbin : ∀ op l r l' r', q (bin op l r) = q (bin op l' r'))
    (hcall : ∀ name a a', q (call name a) = q (call name a')) (t : FunctionTable) (e : Tree) :
    (e.fold t).count q ≤ e.count q := by
  have hzero : ∀ v, (const v).count q = 0 := by simp [hconst]
  induction e with
  | const v => exact le_rfl
  | var v => exact le_rfl
  | bin op l r ihl ihr =>
      rw [fold]
      rcases foldBin_cases op (l.fold t) (r.fold t) with ⟨a, b, -, -, hfold⟩ | ⟨-, hfold⟩
      · rw [hfold, hzero]
        exact Nat.zero_le _
      · rw [hfold, count_bin, count_bin, hbin op (l.fold t) (r.fold t) l r]
        omega
  | call name a ih =>
      rw [fold]
      rcases foldCall_cases t name (a.fold t) with ⟨v, f, -, -, hfold⟩ | ⟨-, hfold⟩
      · rw [hfold, hzero]
        exact Nat.zero_le _
      · rw [hfold, count_call, count_call, hcall name (a.fold t) a]
        omega

theorem count_isBin_fold_le (t : FunctionTable) (e : Tree) :
    (e.fold t).count isBin ≤ e.count isBin :=
  count_fold_le (fun _ ↦ rfl) (fun _ _ _ _ _ ↦ rfl) (fun _ _ _ ↦ rfl) t e

theorem count_isCall_fold_le (t : FunctionTable) (e : Tree) :
    (e.fold t).count isCall ≤ e.count isCall :=
  count_fold_le (fun _ ↦ rfl) (fun _ _ _ _ _ ↦ rfl) (fun _ _ _ ↦ rfl) t e

/-- Folding brings in no call, whichever functions it folds with. -/
theorem Known.fold {t : FunctionTable} {e : Tree} (h : e.Known t) (t' : FunctionTable) :
    (e.fold t').Known t := by
  induction e with
  | const v => trivial
  | var v => trivial
  | bin op l r ihl ihr =>
      rw [Tree.fold]
      rcases foldBin_cases op (l.fold t') (r.fold t') with ⟨a, b, -, -, hfold⟩ | ⟨-, hfold⟩
      · rw [hfold]
        trivial
      · rw [hfold]
        exact ⟨ihl h.1, ihr h.2⟩
  | call name a ih =>
      rw [Tree.fold]
      rcases foldCall_cases t' name (a.fold t') with ⟨v, f, -, -, hfold⟩ | ⟨-, hfold⟩
      · rw [hfold]
        trivial
      · rw [hfold]
        exact ⟨h.1, ih h.2⟩

end Tree

end Formula
