import Formula.Proofs.X86.Decoding
import Formula.X86.Machine
import Mathlib

/-!
# Words in memory

A word is eight consecutive bytes. `InWord a c` says that the byte at `c` is one of the word at `a`,
also where the addresses wrap around. Writing a word changes the bytes of that word only, and a word
reads the same in two memories that agree on its bytes.
-/

namespace Formula.X86

/-- The byte at `c` is one of the eight from `a` on. -/
def InWord (a c : UInt64) : Prop := (c - a).toNat < 8

instance (a c : UInt64) : Decidable (InWord a c) := inferInstanceAs (Decidable (_ < _))

theorem inWord_add {a : UInt64} {i : Nat} (h : i < 8) : InWord a (a + UInt64.ofNat i) := by
  rw [InWord, UInt64.toNat_sub, UInt64.toNat_add, UInt64.toNat_ofNat']
  have := a.toNat_lt
  omega

/-- Where the word at `a` does not wrap around, its bytes are those from `a` on in order. -/
theorem inWord_iff {a c : UInt64} (h : a.toNat + 8 ≤ 2 ^ 64) :
    InWord a c ↔ a.toNat ≤ c.toNat ∧ c.toNat < a.toNat + 8 := by
  rw [InWord, UInt64.toNat_sub]
  have ha := a.toNat_lt
  have hc := c.toNat_lt
  omega

theorem le_of_inWord {a c : UInt64} (h : a.toNat + 8 ≤ 2 ^ 64) (hc : InWord a c) : a ≤ c :=
  UInt64.le_iff_toNat_le.2 ((inWord_iff h).1 hc).1

namespace Memory

theorem read_writeBytes (m : Memory) (a c : UInt64) (bs : List UInt8)
    (h : bs.length ≤ 2 ^ 64) :
    (m.writeBytes a bs).read c =
      if (c - a).toNat < bs.length then bs.getD (c - a).toNat 0 else m.read c := by
  induction bs generalizing m a with
  | nil => simp [writeBytes]
  | cons b bs ih =>
      have hlen : bs.length + 1 ≤ 2 ^ 64 := h
      rw [writeBytes, ih (m.write a b) (a + 1) (by omega), read_write]
      have ha := a.toNat_lt
      have hc := c.toNat_lt
      by_cases hac : a = c
      · subst hac
        have hnext : (a - (a + 1)).toNat = 2 ^ 64 - 1 := by
          rw [UInt64.toNat_sub, UInt64.toNat_add, UInt64.toNat_one]
          omega
        rw [if_neg (by omega), if_pos rfl]
        simp
      · have hne : a.toNat ≠ c.toNat := fun heq ↦ hac (UInt64.toNat_inj.1 heq)
        have hnext : (c - a).toNat = (c - (a + 1)).toNat + 1 := by
          rw [UInt64.toNat_sub, UInt64.toNat_sub, UInt64.toNat_add, UInt64.toNat_one]
          omega
        rw [hnext, if_neg hac]
        simp

theorem read_writeWord_of_not_inWord (m : Memory) {a c : UInt64} (w : UInt64)
    (h : ¬ InWord a c) : (m.writeWord a w).read c = m.read c := by
  rw [writeWord, read_writeBytes _ _ _ _ (by simp), length_littleEndian]
  exact if_neg h

theorem readBytes_congr {m m' : Memory} {a : UInt64} {count : Nat}
    (h : ∀ i < count, m.read (a + UInt64.ofNat i) = m'.read (a + UInt64.ofNat i)) :
    m.readBytes a count = m'.readBytes a count := by
  induction count generalizing a with
  | zero => rfl
  | succ count ih =>
      have hfirst : m.read a = m'.read a := by simpa using h 0 (by omega)
      have hrest : m.readBytes (a + 1) count = m'.readBytes (a + 1) count := by
        apply ih
        intro i hi
        have hnext : a + 1 + UInt64.ofNat i = a + UInt64.ofNat (i + 1) := by
          rw [UInt64.ofNat_add, add_assoc, add_comm 1 (UInt64.ofNat i)]
          rfl
        rw [hnext]
        exact h (i + 1) (by omega)
      rw [readBytes, readBytes, hfirst, hrest]

theorem readWord_congr {m m' : Memory} {a : UInt64} (h : ∀ c, InWord a c → m.read c = m'.read c) :
    m.readWord a = m'.readWord a := by
  rw [readWord, readWord, readBytes_congr fun i hi ↦ h _ (inWord_add hi)]

theorem readBytes_writeBytes (m : Memory) (a : UInt64) (bs : List UInt8)
    (h : bs.length ≤ 2 ^ 64) : (m.writeBytes a bs).readBytes a bs.length = bs := by
  induction bs generalizing m a with
  | nil => rfl
  | cons b bs ih =>
      have hlen : bs.length + 1 ≤ 2 ^ 64 := h
      have hfirst : (m.writeBytes a (b :: bs)).read a = b := by
        rw [read_writeBytes _ _ _ _ h, if_pos (by simp)]
        simp
      rw [List.length_cons, readBytes, hfirst, writeBytes, ih _ _ (by omega)]

@[simp] theorem readWord_writeWord (m : Memory) (a w : UInt64) :
    (m.writeWord a w).readWord a = w := by
  have hbytes := readBytes_writeBytes m a (littleEndian w.toNat 8) (by simp)
  rw [length_littleEndian] at hbytes
  rw [readWord, writeWord, hbytes, ofLittleEndian_littleEndian,
    Nat.mod_eq_of_lt (show w.toNat < 256 ^ 8 from w.toNat_lt), UInt64.ofNat_toNat]

end Memory

end Formula.X86
