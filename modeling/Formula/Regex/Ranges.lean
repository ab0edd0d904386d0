/-!
# Sets of numbers as ranges

A set is a list of ranges, each with its first and last number, in order, with a gap between any two
of them. Sets of characters and of bytes are such sets.
-/

namespace Formula.Regex

abbrev Ranges := List (Nat × Nat)

namespace Ranges

def covers (r : Ranges) (n : Nat) : Bool := r.any fun (lo, hi) ↦ lo ≤ n && n ≤ hi

/-- Joins each range with those after it that overlap it or follow it without a gap. -/
def joinFrom (lo hi : Nat) : Ranges → Ranges
  | [] => [(lo, hi)]
  | (lo', hi') :: rest =>
    if lo' ≤ hi + 1 then joinFrom lo (max hi hi') rest else (lo, hi) :: joinFrom lo' hi' rest

def ofList (rs : List (Nat × Nat)) : Ranges :=
  match rs.mergeSort fun a b ↦ a.1 ≤ b.1 with
  | [] => []
  | (lo, hi) :: rest => joinFrom lo hi rest

def union (a b : Ranges) : Ranges := ofList (a ++ b)

/-- The gaps from a number on, up to the largest one. -/
def gapsFrom (top lo : Nat) : Ranges → Ranges
  | [] => if lo ≤ top then [(lo, top)] else []
  | (first, last) :: rest =>
    (if lo < first then [(lo, first - 1)] else []) ++ gapsFrom top (last + 1) rest

def complement (top : Nat) (r : Ranges) : Ranges := gapsFrom top 0 r

def intersection (top : Nat) (a b : Ranges) : Ranges :=
  complement top (union (complement top a) (complement top b))

def difference (top : Nat) (a b : Ranges) : Ranges := intersection top a (complement top b)

end Ranges

end Formula.Regex
