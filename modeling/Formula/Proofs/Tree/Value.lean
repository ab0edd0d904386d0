import Formula.FunctionTable
import Formula.Tree
import Mathlib

/-!
# The value of a formula

`Tree.value` applies operators and functions from the leaves up. It gives something exactly when
every function that is called has an entry (`Tree.Known`).
-/

namespace Formula

theorem FunctionTable.contains_eq_true_iff (t : FunctionTable) (name : String) :
    t.contains name = true ↔ ∃ f, t.get? name = some f := by
  rw [contains, Option.isSome_iff_exists]

theorem FunctionTable.address?_of_get? {t : FunctionTable} {name : String} {f : Native}
    (h : t.get? name = some f) : t.address? name = some f.address := by
  simp [address?, h]

namespace Tree

def hasCall : Tree → Bool
  | const _ | var _ => false
  | bin _ l r => l.hasCall || r.hasCall
  | call _ _ => true

/-- How many operations and calls are on a path from the root, at most. -/
def height : Tree → Nat
  | const _ | var _ => 0
  | bin _ l r => max l.height r.height + 1
  | call _ a => a.height + 1

/-- Every function that is called has an entry. -/
def Known (t : FunctionTable) : Tree → Prop
  | const _ | var _ => True
  | bin _ l r => l.Known t ∧ r.Known t
  | call name a => t.contains name = true ∧ a.Known t

def value (t : FunctionTable) (x y : Double) : Tree → Option Double
  | const v => some v
  | var .x => some x
  | var .y => some y
  | bin op l r => do
    let a ← l.value t x y
    let b ← r.value t x y
    return op.apply a b
  | call name a => do
    let f ← t.get? name
    let v ← a.value t x y
    return f.apply v

theorem exists_value_iff (t : FunctionTable) (x y : Double) (e : Tree) :
    (∃ v, e.value t x y = some v) ↔ e.Known t := by
  induction e with
  | const v => simp [value, Known]
  | var v => cases v <;> simp [value, Known]
  | bin op l r ihl ihr =>
      simp only [value, Known, ← ihl, ← ihr]
      cases l.value t x y <;> cases r.value t x y <;> simp
  | call name a ih =>
      simp only [value, Known, ← ih, FunctionTable.contains_eq_true_iff]
      cases t.get? name <;> cases a.value t x y <;> simp

end Tree

end Formula
