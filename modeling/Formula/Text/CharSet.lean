/-!
# Sets of characters

A set of characters is a list of code point ranges in increasing order. Membership walks the list
and stops at the first range that starts above the character; because of the order no later range
has it (`CharSet.contains_iff`).
-/

namespace Formula.Text

/-- No range starts below `start`, and each one starts behind the end of the one before it. -/
def inOrder (start : Nat) : List (Nat × Nat) → Bool
  | [] => true
  | (lo, hi) :: rest => decide (start ≤ lo) && decide (lo ≤ hi) && inOrder (hi + 1) rest

/-- A set of characters, as inclusive ranges of code points in increasing order. -/
structure CharSet where
  ranges : List (Nat × Nat)
  ordered : inOrder 0 ranges = true := by decide +kernel

namespace CharSet

def covers (n : Nat) : List (Nat × Nat) → Bool
  | [] => false
  | (lo, hi) :: rest => if n < lo then false else if n ≤ hi then true else covers n rest

def contains (s : CharSet) (c : Char) : Bool := covers c.toNat s.ranges

theorem le_of_inOrder {start : Nat} {rs : List (Nat × Nat)} (h : inOrder start rs = true) :
    ∀ r ∈ rs, start ≤ r.1 := by
  induction rs generalizing start with
  | nil => simp
  | cons r rest ih =>
    simp only [inOrder, Bool.and_eq_true, decide_eq_true_eq] at h
    obtain ⟨⟨hstart, hle⟩, hrest⟩ := h
    intro s hs
    rcases List.mem_cons.1 hs with rfl | hs
    · exact hstart
    · have := ih hrest s hs
      omega

theorem covers_iff {start n : Nat} {rs : List (Nat × Nat)} (h : inOrder start rs = true) :
    covers n rs = true ↔ ∃ r ∈ rs, r.1 ≤ n ∧ n ≤ r.2 := by
  induction rs generalizing start with
  | nil => simp [covers]
  | cons r rest ih =>
    obtain ⟨lo, hi⟩ := r
    simp only [inOrder, Bool.and_eq_true, decide_eq_true_eq] at h
    obtain ⟨⟨hstart, hle⟩, hrest⟩ := h
    rw [covers]
    split
    · next hlow =>
      -- The ranges that are left all start above the character.
      have hlater := le_of_inOrder hrest
      simp only [Bool.false_eq_true, List.mem_cons, false_iff, not_exists, not_and]
      rintro r (rfl | hr) hrn
      · omega
      · have := hlater r hr
        omega
    · next hlow =>
      split
      · next hhigh => simpa using Or.inl ⟨Nat.not_lt.1 hlow, hhigh⟩
      · next hhigh => simp [ih hrest, hhigh]

theorem contains_iff (s : CharSet) (c : Char) :
    s.contains c = true ↔ ∃ r ∈ s.ranges, r.1 ≤ c.toNat ∧ c.toNat ≤ r.2 :=
  covers_iff s.ordered

end CharSet

end Formula.Text
