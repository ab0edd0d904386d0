import Formula.Code.Buffer
import Formula.Proofs.X86.Execution

/-!
# Streams of instructions

The bytes of an instruction are read as that instruction whatever stands behind them, so bytes that
are written one instruction after the other fall apart into these instructions in one way only. No
instruction is a proper prefix of another, and different sequences of instructions differ in their
bytes.
-/

namespace Formula

namespace X86

/-- Reads at most `count` instructions, up to the end of the bytes. -/
def decodeUpTo : (count : Nat) → List UInt8 → Option (List Instr)
  | _, [] => some []
  | 0, _ :: _ => none
  | count + 1, b :: bs => do
    let (i, rest) ← decode (b :: bs)
    let is ← decodeUpTo count rest
    return i :: is

/-- Reads bytes as instructions from the first byte to the last. An instruction has at least one
byte, so there are no more instructions than bytes. -/
def decodeAll (code : List UInt8) : Option (List Instr) := decodeUpTo code.length code

theorem decodeUpTo_of_decode {count : Nat} {code rest : List UInt8} {i : Instr}
    (h : decode code = some (i, rest)) :
    decodeUpTo (count + 1) code = (decodeUpTo count rest).map (i :: ·) := by
  cases code with
  | nil => cases h
  | cons b bs =>
      rw [decodeUpTo, h, Option.map_eq_bind]
      rfl

theorem decodeUpTo_encodeAll {is : List Instr} {count : Nat} (h : is.length ≤ count) :
    decodeUpTo count (encodeAll is) = some is := by
  induction is generalizing count with
  | nil => cases count <;> rfl
  | cons i is ih =>
      rw [List.length_cons] at h
      obtain ⟨count, rfl⟩ : ∃ k, count = k + 1 := ⟨count - 1, by omega⟩
      have hrest : decodeUpTo count (encodeAll is) = some is := ih (by omega)
      rw [encodeAll_cons, decodeUpTo_of_decode (decode_encode i _), hrest]
      rfl

theorem decodeAll_encodeAll (is : List Instr) : decodeAll (encodeAll is) = some is :=
  decodeUpTo_encodeAll (Machine.length_le_length_encodeAll is)

theorem encodeAll_injective : Function.Injective encodeAll := by
  intro is js h
  apply Option.some.inj
  rw [← decodeAll_encodeAll is, h, decodeAll_encodeAll]

/-- Where bytes start with two instructions, these are the same. -/
theorem eq_of_encode_append {i j : Instr} {s t : List UInt8} (h : i.encode ++ s = j.encode ++ t) :
    i = j ∧ s = t := by
  have hread := decode_encode i s
  rw [h, decode_encode] at hread
  cases hread
  exact ⟨rfl, rfl⟩

theorem encode_prefix_iff {i j : Instr} : i.encode <+: j.encode ↔ i = j := by
  constructor
  · rintro ⟨t, ht⟩
    rw [← List.append_nil j.encode] at ht
    exact (eq_of_encode_append ht).1
  · rintro rfl
    exact List.prefix_rfl

end X86

namespace Code.Buffer

open X86

theorem toList_code_foldl_emitInstr (b : Buffer) (is : List Instr) :
    (is.foldl emitInstr b).code.toList = b.code.toList ++ encodeAll is := by
  induction is generalizing b with
  | nil => simp
  | cons i is ih =>
      have hfirst : (b.emitInstr i).code.toList = b.code.toList ++ i.encode := by
        simp [emitInstr, emitBytes]
      rw [List.foldl_cons, ih, hfirst, encodeAll_cons, List.append_assoc]

/-- The bytes that instructions add to a buffer are read as these instructions and no others. No
instruction is the beginning of another one, and other instructions add other bytes. -/
theorem emitted_bytes_decode_uniquely :
    (∀ (b : Buffer) (is : List Instr), ∃ bytes,
        (is.foldl emitInstr b).code.toList = b.code.toList ++ bytes ∧
          decodeAll bytes = some is) ∧
      (∀ i j : Instr, i.encode <+: j.encode ↔ i = j) ∧
      ∀ (b : Buffer) (is js : List Instr),
        (is.foldl emitInstr b).code = (js.foldl emitInstr b).code ↔ is = js := by
  refine ⟨fun b is ↦ ?_, fun i j ↦ encode_prefix_iff, fun b is js ↦ ⟨fun h ↦ ?_, fun h ↦ ?_⟩⟩
  · exact ⟨encodeAll is, b.toList_code_foldl_emitInstr is, decodeAll_encodeAll is⟩
  · have hbytes := congrArg Array.toList h
    rw [toList_code_foldl_emitInstr, toList_code_foldl_emitInstr] at hbytes
    exact encodeAll_injective (List.append_cancel_left hbytes)
  · rw [h]

end Code.Buffer

end Formula
