import Formula.Proofs.Tree.Value

/-!
# Folding a tree

`Tree.fold` folds a formula from the leaves up: an operation on two constants is a constant, and so
is a call of a function that has an entry on a constant. A call without an entry is never folded, so
folding changes neither the value (`Tree.sameValue_fold`) nor the calls without an entry and their
order (`Tree.firstUnknown?_fold`).
-/

namespace Formula

/-- Two formulas have the same value everywhere, or neither has one. -/
def Tree.SameValue (t : FunctionTable) (a b : Tree) : Prop :=
  ∀ x y, a.value t x y = b.value t x y

namespace Tree

variable {t : FunctionTable}

def foldBin (op : BinOp) : Tree → Tree → Tree
  | const a, const b => const (op.apply a b)
  | l, r => bin op l r

def foldCall (t : FunctionTable) (name : String) : Tree → Tree
  | const v =>
    match t.get? name with
    | some f => const (f.apply v)
    | none => call name (const v)
  | a => call name a

def fold (t : FunctionTable) : Tree → Tree
  | const v => const v
  | var v => var v
  | bin op l r => foldBin op (l.fold t) (r.fold t)
  | call name a => foldCall t name (a.fold t)

theorem foldBin_cases (op : BinOp) (l r : Tree) :
    (∃ a b, l = const a ∧ r = const b ∧ foldBin op l r = const (op.apply a b)) ∨
      (∀ a b, ¬ (l = const a ∧ r = const b)) ∧ foldBin op l r = bin op l r := by
  unfold foldBin
  split
  · next a b => exact .inl ⟨a, b, rfl, rfl, rfl⟩
  · next hkeep => exact .inr ⟨fun a b h ↦ hkeep a b h.1 h.2, rfl⟩

theorem foldCall_cases (t : FunctionTable) (name : String) (a : Tree) :
    (∃ v f, a = const v ∧ t.get? name = some f ∧ foldCall t name a = const (f.apply v)) ∨
      (∀ v f, ¬ (a = const v ∧ t.get? name = some f)) ∧ foldCall t name a = call name a := by
  unfold foldCall
  split
  · next v =>
      cases hf : t.get? name with
      | some f => exact .inl ⟨v, f, rfl, rfl, rfl⟩
      | none => exact .inr ⟨by simp, rfl⟩
  · next hkeep => exact .inr ⟨fun v f h ↦ hkeep v h.1, rfl⟩

theorem sameValue_fold (t : FunctionTable) (e : Tree) : SameValue t (e.fold t) e := by
  intro x y
  induction e with
  | const v => rfl
  | var v => rfl
  | bin op l r ihl ihr =>
      rw [fold, value, ← ihl, ← ihr]
      rcases foldBin_cases op (l.fold t) (r.fold t) with ⟨a, b, ha, hb, hfold⟩ | ⟨-, hfold⟩
      · rw [hfold, ha, hb]
        rfl
      · rw [hfold, value]
  | call name a ih =>
      rw [fold, value, ← ih]
      rcases foldCall_cases t name (a.fold t) with ⟨v, f, hv, hf, hfold⟩ | ⟨-, hfold⟩
      · rw [hfold, hv, hf]
        rfl
      · rw [hfold, value]

theorem height_fold_le (t : FunctionTable) (e : Tree) : (e.fold t).height ≤ e.height := by
  induction e with
  | const v => exact le_rfl
  | var v => exact le_rfl
  | bin op l r ihl ihr =>
      rw [fold]
      rcases foldBin_cases op (l.fold t) (r.fold t) with ⟨a, b, -, -, hfold⟩ | ⟨-, hfold⟩
      · rw [hfold]
        exact Nat.zero_le _
      · rw [hfold]
        exact Nat.succ_le_succ (max_le_max ihl ihr)
  | call name a ih =>
      rw [fold]
      rcases foldCall_cases t name (a.fold t) with ⟨v, f, -, -, hfold⟩ | ⟨-, hfold⟩
      · rw [hfold]
        exact Nat.zero_le _
      · rw [hfold]
        exact Nat.succ_le_succ ih

/-- The functions that are called, each before those that its argument calls, and those of a right
operand before those of the left one. -/
def callNames : Tree → List String
  | const _ | var _ => []
  | bin _ l r => r.callNames ++ l.callNames
  | call name a => name :: a.callNames

/-- The first of the functions that are called to have no entry. -/
def firstUnknown? (t : FunctionTable) (e : Tree) : Option String :=
  e.callNames.find? fun name ↦ !t.contains name

theorem firstUnknown?_bin (t : FunctionTable) (op : BinOp) (l r : Tree) :
    (bin op l r).firstUnknown? t = (r.firstUnknown? t).or (l.firstUnknown? t) :=
  List.find?_append

theorem firstUnknown?_call (t : FunctionTable) (name : String) (a : Tree) :
    (call name a).firstUnknown? t =
      if t.contains name then a.firstUnknown? t else some name := by
  rw [firstUnknown?, callNames, List.find?_cons]
  cases t.contains name <;> rfl

theorem firstUnknown?_eq_none_iff {e : Tree} : e.firstUnknown? t = none ↔ e.Known t := by
  induction e with
  | const v => simp [firstUnknown?, callNames, Known]
  | var v => simp [firstUnknown?, callNames, Known]
  | bin op l r ihl ihr => rw [firstUnknown?_bin, Option.or_eq_none_iff, ihl, ihr, Known, and_comm]
  | call name a ih =>
      rw [firstUnknown?_call, Known, ← ih]
      cases t.contains name <;> simp

theorem firstUnknown?_of_hasCall_eq_false {e : Tree} (h : e.hasCall = false) :
    e.firstUnknown? t = none := by
  rw [firstUnknown?_eq_none_iff]
  induction e with
  | const v => trivial
  | var v => trivial
  | bin op l r ihl ihr =>
      rw [hasCall, Bool.or_eq_false_iff] at h
      exact ⟨ihl h.1, ihr h.2⟩
  | call name a _ => cases h

theorem firstUnknown?_fold (t : FunctionTable) (e : Tree) :
    (e.fold t).firstUnknown? t = e.firstUnknown? t := by
  induction e with
  | const v => rfl
  | var v => rfl
  | bin op l r ihl ihr =>
      rw [fold, firstUnknown?_bin, ← ihl, ← ihr]
      rcases foldBin_cases op (l.fold t) (r.fold t) with ⟨a, b, ha, hb, hfold⟩ | ⟨-, hfold⟩
      · rw [hfold, ha, hb]
        rfl
      · rw [hfold, firstUnknown?_bin]
  | call name a ih =>
      rw [fold, firstUnknown?_call, ← ih]
      rcases foldCall_cases t name (a.fold t) with ⟨v, f, hv, hf, hfold⟩ | ⟨-, hfold⟩
      · -- A call is folded only if it has an entry.
        rw [hfold, hv, if_pos ((t.contains_eq_true_iff name).2 ⟨f, hf⟩)]
        rfl
      · rw [hfold, firstUnknown?_call]

end Tree

end Formula
