import Formula.Block
import Mathlib

/-!
# The pages behind a block

A block of executable memory stands on pages of the system, which have rights of their own: a store
to a page that may not be written, or outside the pages, brings the program down. The operations of
a block are written here as work on such pages, with sizes as machine words and data copied byte by
byte. They agree with the operations of `Block` (`Mapping.create_eq`, `Mapping.Op.run_act`), so no
store goes wrong. What holds after any sequence of operations, failing ones included, is
`Mapping.pages_keep_what_is_written`.
-/

namespace Formula.Block

/-- Pages of memory, as the system keeps them. -/
structure Pages where
  size : Nat
  contents : Nat → UInt8
  writable : Bool
  executable : Bool

/-- What a program notes of its memory, and the pages behind it. -/
structure Mapping where
  size : Nat
  executable : Bool
  pages : Pages

namespace Mapping

inductive Stop where
  | refused (e : MemoryError)
  /-- A store that the pages do not allow. -/
  | fault

/-- Work that can stop. What it has changed by then stays changed. -/
abbrev Work := EStateM Stop Mapping

/-- Fresh pages for at least `size` bytes, from a system that grants some sizes and not others. -/
def create (grants : Nat → Bool) (size : UInt64) : Except MemoryError Mapping :=
  if size = 0 then .error .invalidSize
  -- The sum of words wraps around.
  else if size + 4096 < size then .error .sizeOverflow
  else
    let whole := ((size + 4096 - 1) &&& ~~~(4096 - 1)).toNat
    if grants whole then .ok ⟨whole, false, ⟨whole, fun _ ↦ 0, true, false⟩⟩
    else .error .allocationFailed

def store (i : Nat) (x : UInt8) : Work Unit := do
  let m ← get
  if m.pages.writable = true ∧ i < m.pages.size then
    set { m with pages.contents := Function.update m.pages.contents i x }
  else throw .fault

def copy : Nat → List UInt8 → Work Unit
  | _, [] => return
  | i, x :: xs => do
    store i x
    copy (i + 1) xs

def write (offset : Nat) (data : Array UInt8) : Work Unit := do
  if (← get).executable then throw (.refused .protectionFailed)
  if sizeLimit ≤ offset + data.size then throw (.refused .invalidSize)
  if (← get).size < offset + data.size then throw (.refused .invalidSize)
  copy offset data.toList

def makeExecutable : Work Unit := do
  if (← get).executable then return
  modify fun m ↦ { m with pages.writable := false, pages.executable := true }
  modify fun m ↦ { m with executable := true }

/-- A block on pages that can be written until it is executable, and run from then on. -/
def ofBlock (b : Block) : Mapping :=
  ⟨b.size, b.executable, ⟨b.size, b.contents, !b.executable, b.executable⟩⟩

end Mapping

theorem and_not_pageMask (x : UInt64) :
    (x &&& ~~~(4096 - 1)).toNat = x.toNat / pageSize * pageSize := by
  have hmask : 4095#64 = (BitVec.allOnes 12).setWidth 64 := by decide
  have hclear : x.toBitVec &&& ~~~4095#64 = (x.toBitVec >>> 12) <<< 12 := by
    ext i hi
    rw [hmask]
    simp only [BitVec.getElem_and, BitVec.getElem_not, BitVec.getElem_setWidth,
      BitVec.getLsbD_allOnes, BitVec.getElem_shiftLeft, BitVec.getElem_ushiftRight]
    by_cases hlow : i < 12
    · simp [hlow]
    · have hback : 12 + (i - 12) = i := by omega
      simp [hlow, hback, BitVec.getLsbD_eq_getElem hi]
  have hbits : (x &&& ~~~(4096 - 1)).toBitVec = x.toBitVec &&& ~~~4095#64 := rfl
  rw [← UInt64.toNat_toBitVec, hbits, hclear]
  simp only [BitVec.toNat_shiftLeft, BitVec.toNat_ushiftRight, Nat.shiftRight_eq_div_pow,
    Nat.shiftLeft_eq, UInt64.toNat_toBitVec, pageSize]
  have := x.toNat_lt
  omega

theorem isLeast_roundUp (size : Nat) : IsLeast {n | pageSize ∣ n ∧ size ≤ n} (roundUp size) := by
  simp only [roundUp, pageSize]
  refine ⟨⟨Nat.dvd_mul_left _ _, by omega⟩, ?_⟩
  rintro n ⟨⟨k, rfl⟩, hn⟩
  omega

theorem roundUp_lt_sizeLimit {size : Nat} (h : size + pageSize < sizeLimit) :
    roundUp size < sizeLimit := by
  simp only [roundUp, pageSize, sizeLimit] at h ⊢
  omega

/-- Contents with data laid over them from an offset on. -/
def overlay (contents : Nat → UInt8) (offset : Nat) (data : List UInt8) (i : Nat) : UInt8 :=
  if offset ≤ i ∧ i < offset + data.length then data.getD (i - offset) 0 else contents i

theorem overlay_nil (contents : Nat → UInt8) (offset : Nat) :
    overlay contents offset [] = contents := by
  funext i
  have hnone : ¬ (offset ≤ i ∧ i < offset + 0) := by omega
  exact if_neg hnone

/-- The first byte can be laid first, since it is not among those that follow. -/
theorem overlay_cons (contents : Nat → UInt8) (offset : Nat) (x : UInt8) (xs : List UInt8) :
    overlay contents offset (x :: xs) =
      overlay (Function.update contents offset x) (offset + 1) xs := by
  funext i
  simp only [overlay, List.length_cons]
  rcases lt_trichotomy i offset with hi | rfl | hi
  · simp [Function.update_of_ne hi.ne, hi.not_ge, (Nat.lt_succ_of_lt hi).not_ge]
  · simp
  · have hrest : i - offset = i - (offset + 1) + 1 := by omega
    have hcovered : offset ≤ i ∧ i < offset + (xs.length + 1) ↔
        offset + 1 ≤ i ∧ i < offset + 1 + xs.length := by omega
    simp only [hrest, List.getD_cons_succ, Function.update_of_ne hi.ne', hcovered]

/-- What a write does. -/
theorem write_cases (b : Block) (offset : Nat) (data : Array UInt8) :
    (b.executable = false ∧ offset + data.size ≤ b.size ∧
        b.write offset data =
          .ok { b with contents := overlay b.contents offset data.toList }) ∨
      (¬ (b.executable = false ∧ offset + data.size ≤ b.size) ∧
        ∃ e, b.write offset data = .error e) := by
  unfold Block.write
  cases hexec : b.executable with
  | true => simp
  | false =>
      by_cases hfits : b.size < offset + data.size
      · exact .inr ⟨by omega, .invalidSize, by simp [hfits]⟩
      · have hover : overlay b.contents offset data.toList = fun i ↦
            if offset ≤ i ∧ i < offset + data.size then data.getD (i - offset) 0
            else b.contents i := by
          funext i
          simp [overlay]
        exact .inl ⟨rfl, by omega, by rw [hover]; simp [hfits]⟩

namespace Mapping

theorem create_cases (grants : Nat → Bool) (size : UInt64) :
    (size = 0 ∧ create grants size = .error .invalidSize) ∨
      (size ≠ 0 ∧ sizeLimit ≤ size.toNat + pageSize ∧
        create grants size = .error .sizeOverflow) ∨
      (size ≠ 0 ∧ size.toNat + pageSize < sizeLimit ∧
        create grants size = if grants (roundUp size.toNat)
          then .ok (ofBlock ⟨roundUp size.toNat, false, fun _ ↦ 0⟩)
          else .error .allocationFailed) := by
  unfold create
  by_cases hzero : size = 0
  · exact .inl ⟨hzero, if_pos hzero⟩
  have hlt := size.toNat_lt
  have hadd : (size + 4096).toNat = (size.toNat + 4096) % 2 ^ 64 := UInt64.toNat_add _ _
  simp only [if_neg hzero, UInt64.lt_iff_toNat_lt, hadd, sizeLimit, pageSize]
  right
  by_cases hfits : size.toNat + 4096 < 2 ^ 64
  · have hone : 1 ≤ size + 4096 := by
      rw [UInt64.le_iff_toNat_le, hadd, Nat.mod_eq_of_lt hfits]
      exact Nat.le_add_left_of_le (by decide)
    have hpadded : (size + 4096 - 1).toNat = size.toNat + pageSize - 1 := by
      rw [UInt64.toNat_sub_of_le _ _ hone, hadd, Nat.mod_eq_of_lt hfits]
      rfl
    have hwhole : ((size + 4096 - 1) &&& ~~~(4096 - 1)).toNat = roundUp size.toNat := by
      rw [and_not_pageMask, hpadded, roundUp]
    have hwrap : ¬ (size.toNat + 4096) % 2 ^ 64 < size.toNat := by omega
    exact .inr ⟨hzero, by omega, by rw [if_neg hwrap, hwhole]; rfl⟩
  · have hwrap : (size.toNat + 4096) % 2 ^ 64 < size.toNat := by omega
    exact .inl ⟨hzero, by omega, if_pos hwrap⟩

theorem create_eq (size : UInt64) :
    create (fun n ↦ n < allocationLimit) size = (Block.new size.toNat).map ofBlock := by
  unfold Block.new
  have hzero : size.toNat = 0 ↔ size = 0 := by simp [← UInt64.toNat_inj]
  rcases create_cases (fun n ↦ n < allocationLimit) size with
    ⟨rfl, heq⟩ | ⟨hne, hover, heq⟩ | ⟨hne, hfits, heq⟩
  · rw [heq]
    rfl
  · rw [heq, if_neg (hzero.not.2 hne), if_pos hover]
    rfl
  · rw [heq, if_neg (hzero.not.2 hne), if_neg hfits.not_ge]
    by_cases hlimit : roundUp size.toNat < allocationLimit
    · simp [hlimit, hlimit.not_ge, Except.map]
    · simp [hlimit, not_lt.1 hlimit, Except.map]

theorem run_store {m : Mapping} {i : Nat} (hwritable : m.pages.writable = true)
    (hi : i < m.pages.size) (x : UInt8) :
    (store i x).run m =
      .ok () { m with pages.contents := Function.update m.pages.contents i x } := by
  simp only [store, EStateM.run_bind, EStateM.run_get]
  simp [hwritable, hi]

theorem run_copy {m : Mapping} {offset : Nat} {data : List UInt8}
    (hwritable : m.pages.writable = true) (hfits : offset + data.length ≤ m.pages.size) :
    (copy offset data).run m =
      .ok () { m with pages.contents := overlay m.pages.contents offset data } := by
  induction data generalizing m offset with
  | nil =>
      rw [overlay_nil]
      rfl
  | cons x xs ih =>
      rw [List.length_cons] at hfits
      have hrest : offset + 1 + xs.length ≤ m.pages.size := by omega
      rw [copy, EStateM.run_bind, run_store hwritable (by omega), overlay_cons]
      exact ih hwritable hrest

/-- An operation of a block. -/
inductive Op where
  | write (offset : Nat) (data : Array UInt8)
  | makeExecutable

namespace Op

def outcome (b : Block) : Op → Except MemoryError Block
  | write offset data => b.write offset data
  | makeExecutable => .ok b.makeExecutable

def act : Op → Work Unit
  | write offset data => Mapping.write offset data
  | makeExecutable => Mapping.makeExecutable

end Op

/-- What work on the pages of a block shows: a failure leaves the block as it was. -/
def shown (b : Block) : Except MemoryError Block → EStateM.Result Stop Mapping Unit
  | .ok b' => .ok () (ofBlock b')
  | .error e => .error (.refused e) (ofBlock b)

theorem run_write {b : Block} (hsize : b.size < sizeLimit) (offset : Nat) (data : Array UInt8) :
    (write offset data).run (ofBlock b) = shown b (b.write offset data) := by
  simp only [write, EStateM.run_bind, EStateM.run_get]
  rcases b.write_cases offset data with ⟨hexec, hfits, hok⟩ | ⟨hnot, -⟩
  · have hlimit : ¬ sizeLimit ≤ offset + data.size := by omega
    have hcopy : (copy offset data.toList).run (ofBlock b) = _ :=
      run_copy (by simp [ofBlock, hexec]) (by simpa [ofBlock] using hfits)
    simp only [ofBlock, hexec] at hcopy
    simpa [ofBlock, hexec, hlimit, hfits.not_gt, hok, shown] using hcopy
  · unfold Block.write
    cases hexec : b.executable with
    | true => simp [ofBlock, hexec, shown]
    | false =>
        have hfits : b.size < offset + data.size := by simpa [hexec] using hnot
        by_cases hlimit : sizeLimit ≤ offset + data.size <;>
          simp [ofBlock, hexec, hlimit, hfits, shown]

theorem run_makeExecutable (b : Block) :
    makeExecutable.run (ofBlock b) = .ok () (ofBlock b.makeExecutable) := by
  simp only [makeExecutable, EStateM.run_bind, EStateM.run_get]
  obtain ⟨size, executable, contents⟩ := b
  cases executable <;> simp [ofBlock, Block.makeExecutable]

theorem Op.run_act {b : Block} (hsize : b.size < sizeLimit) (op : Op) :
    op.act.run (ofBlock b) = shown b (op.outcome b) := by
  cases op with
  | write offset data => exact run_write hsize offset data
  | makeExecutable => exact run_makeExecutable b

/-- Data that was written, and where. -/
structure Chunk where
  offset : Nat
  data : Array UInt8

def Chunk.Covers (c : Chunk) (i : Nat) : Prop := c.offset ≤ i ∧ i < c.offset + c.data.size

instance (c : Chunk) (i : Nat) : Decidable (c.Covers i) :=
  inferInstanceAs (Decidable (_ ∧ _))

/-- What a successful operation writes. -/
def Op.chunks : Op → List Chunk
  | write offset data => [⟨offset, data⟩]
  | makeExecutable => []

/-- A mapping and the writes that succeeded, the latest first. -/
structure History where
  mapping : Mapping
  written : List Chunk

namespace History

/-- Enters an operation. What follows one that fails starts from what that leaves. -/
def enter (h : History) (op : Op) : History :=
  match op.act.run h.mapping with
  | .ok _ m => ⟨m, op.chunks ++ h.written⟩
  | .error _ m => { h with mapping := m }

def ofOps (m : Mapping) (ops : List Op) : History := ops.foldl enter ⟨m, []⟩

/-- The byte of the last successful write that covers a place, or zero. -/
def byteAt (h : History) (i : Nat) : UInt8 :=
  match h.written.find? (·.Covers i) with
  | some c => c.data.getD (i - c.offset) 0
  | none => 0

theorem byteAt_cons (m : Mapping) (c : Chunk) (h : History) (i : Nat) :
    byteAt ⟨m, c :: h.written⟩ i =
      if c.Covers i then c.data.getD (i - c.offset) 0 else h.byteAt i := by
  unfold byteAt
  by_cases hcovers : c.Covers i
  · simp [hcovers]
  · simp [hcovers]

/-- The pages are those of a block, and hold what was written. -/
structure Keeps (h : History) (b : Block) : Prop where
  mapping_eq : h.mapping = ofBlock b
  contents_eq : ∀ i, b.contents i = h.byteAt i

variable {h : History} {b : Block}

theorem Keeps.enter_eq (hkeeps : h.Keeps b) (hsize : b.size < sizeLimit) (op : Op) :
    h.enter op = match op.outcome b with
      | .ok b' => ⟨ofBlock b', op.chunks ++ h.written⟩
      | .error _ => h := by
  unfold enter
  rw [hkeeps.mapping_eq, op.run_act hsize]
  cases op.outcome b with
  | ok b' => rfl
  | error e => rw [shown, ← hkeeps.mapping_eq]

theorem Keeps.makeExecutable (hkeeps : h.Keeps b) (hsize : b.size < sizeLimit) :
    (h.enter .makeExecutable).Keeps b.makeExecutable := by
  rw [hkeeps.enter_eq hsize]
  exact ⟨rfl, hkeeps.contents_eq⟩

theorem Keeps.enter (hkeeps : h.Keeps b) (hsize : b.size < sizeLimit) (op : Op) :
    ∃ b', (h.enter op).Keeps b' ∧ b'.size = b.size := by
  cases op with
  | makeExecutable => exact ⟨b.makeExecutable, hkeeps.makeExecutable hsize, rfl⟩
  | write offset data =>
      rw [hkeeps.enter_eq hsize, Op.outcome, Op.chunks]
      rcases b.write_cases offset data with ⟨-, -, hok⟩ | ⟨-, e, herr⟩
      · rw [hok]
        refine ⟨_, ⟨rfl, fun i ↦ ?_⟩, rfl⟩
        rw [List.singleton_append, byteAt_cons, ← hkeeps.contents_eq i]
        simp [overlay, Chunk.Covers]
      · rw [herr]
        exact ⟨b, hkeeps, rfl⟩

theorem Keeps.foldl (hkeeps : h.Keeps b) (hsize : b.size < sizeLimit) (ops : List Op) :
    ∃ b', (ops.foldl History.enter h).Keeps b' ∧ b'.size = b.size := by
  induction ops generalizing h b with
  | nil => exact ⟨b, hkeeps, rfl⟩
  | cons op ops ih =>
      obtain ⟨b', hkeeps', hsize'⟩ := hkeeps.enter hsize op
      obtain ⟨b'', hkeeps'', hsize''⟩ := ih hkeeps' (hsize' ▸ hsize)
      exact ⟨b'', hkeeps'', hsize''.trans hsize'⟩

theorem Keeps.enter_of_executable (hkeeps : h.Keeps b) (hsize : b.size < sizeLimit)
    (hexec : b.executable = true) (op : Op) : (h.enter op).Keeps b := by
  cases op with
  | makeExecutable =>
      have hsame : b.makeExecutable = b := by rw [Block.makeExecutable, ← hexec]
      exact hsame ▸ hkeeps.makeExecutable hsize
  | write offset data =>
      have herr : b.write offset data = .error .protectionFailed := if_pos hexec
      rw [hkeeps.enter_eq hsize, Op.outcome, herr]
      exact hkeeps

theorem Keeps.foldl_of_executable (hkeeps : h.Keeps b) (hsize : b.size < sizeLimit)
    (hexec : b.executable = true) (ops : List Op) : (ops.foldl History.enter h).Keeps b := by
  induction ops generalizing h with
  | nil => exact hkeeps
  | cons op ops ih => exact ih (hkeeps.enter_of_executable hsize hexec op)

end History

theorem create_eq_ok {grants : Nat → Bool} {size : UInt64} {m : Mapping}
    (h : create grants size = .ok m) :
    m = ofBlock ⟨roundUp size.toNat, false, fun _ ↦ 0⟩ ∧ roundUp size.toNat < sizeLimit := by
  rcases create_cases grants size with ⟨-, heq⟩ | ⟨-, -, heq⟩ | ⟨-, hfits, heq⟩
  · rw [heq] at h
    cases h
  · rw [heq] at h
    cases h
  · rw [heq] at h
    split at h
    · cases h
      exact ⟨rfl, roundUp_lt_sizeLimit hfits⟩
    · cases h

theorem History.exists_keeps_ofOps {grants : Nat → Bool} {size : UInt64} {m : Mapping}
    (h : create grants size = .ok m) (ops : List Op) :
    ∃ b, (ofOps m ops).Keeps b ∧ b.size = roundUp size.toNat ∧ b.size < sizeLimit := by
  obtain ⟨rfl, hlimit⟩ := create_eq_ok h
  let fresh : Block := ⟨roundUp size.toNat, false, fun _ ↦ 0⟩
  have hfresh : Keeps ⟨ofBlock fresh, []⟩ fresh := ⟨rfl, fun _ ↦ rfl⟩
  obtain ⟨b, hkeeps, hsize⟩ := hfresh.foldl hlimit ops
  exact ⟨b, hkeeps, hsize, hsize ▸ hlimit⟩

theorem exists_write_iff {b : Block} (hsize : b.size < sizeLimit) (offset : Nat)
    (data : Array UInt8) : (∃ b', b.write offset data = .ok b') ↔
      b.executable = false ∧ offset + data.size ≤ 2 ^ 64 - 1 ∧ offset + data.size ≤ b.size := by
  rw [sizeLimit] at hsize
  rcases b.write_cases offset data with ⟨hexec, hfits, hok⟩ | ⟨hnot, e, herr⟩
  · exact iff_of_true ⟨_, hok⟩ ⟨hexec, by omega, hfits⟩
  · refine iff_of_false ?_ fun ⟨hexec, _, hfits⟩ ↦ hnot ⟨hexec, hfits⟩
    rintro ⟨b', hok⟩
    cases herr.symm.trans hok

theorem eq_of_shown_eq_error {b : Block} {o : Except MemoryError Block} {s : Stop} {m : Mapping}
    (h : shown b o = .error s m) : m = ofBlock b := by
  cases o <;> cases h
  rfl

/-- Memory is never writable and executable at once and keeps what was written. It is made unless
its size is zero, or too large to be rounded up to whole pages, or the system does not grant it. Its
size is the least that will do and stays. After any operations a write succeeds exactly if the
memory is not executable and the data lie within it; a byte is that of the last successful write
that covers it, or zero; an operation that fails changes nothing, and none changes anything once
the memory is executable. -/
theorem pages_keep_what_is_written (grants : Nat → Bool) (size : UInt64) :
    (create grants size = .error .invalidSize ↔ size = 0) ∧
      (create grants size = .error .sizeOverflow ↔ 2 ^ 64 ≤ size.toNat + 4096) ∧
      ((∃ m, create grants size = .ok m) ↔
        size ≠ 0 ∧ size.toNat + 4096 < 2 ^ 64 ∧ grants (roundUp size.toNat) = true) ∧
      (create grants size = .error .allocationFailed ↔
        size ≠ 0 ∧ size.toNat + 4096 < 2 ^ 64 ∧ grants (roundUp size.toNat) = false) ∧
      create (fun n ↦ n < allocationLimit) size = (Block.new size.toNat).map ofBlock ∧
      ∀ m, create grants size = .ok m → ∀ ops,
        let h := History.ofOps m ops
        ∃ b : Block, h.mapping = ofBlock b ∧
          IsLeast {n | 4096 ∣ n ∧ size.toNat ≤ n} b.size ∧
          ¬ (h.mapping.pages.writable = true ∧ h.mapping.pages.executable = true) ∧
          (∀ op : Op, op.act.run h.mapping = shown b (op.outcome b)) ∧
          (∀ offset data, (∃ b', b.write offset data = .ok b') ↔
            b.executable = false ∧ offset + data.size ≤ 2 ^ 64 - 1 ∧
              offset + data.size ≤ b.size) ∧
          (∀ i, b.contents i = h.byteAt i) ∧
          (∀ (op : Op) s m', op.act.run h.mapping = .error s m' → m' = h.mapping) ∧
          ∀ ops', (History.ofOps m (ops ++ .makeExecutable :: ops')).mapping =
            ofBlock b.makeExecutable := by
  have hcreate := create_cases grants size
  have hzero : size = 0 → size.toNat = 0 := by
    rintro rfl
    rfl
  simp only [pageSize, sizeLimit] at hcreate
  -- The first four parts read off which of the outcomes of `create` it is.
  refine ⟨by grind, by grind, by grind, by grind, create_eq size, ?_⟩
  intro m hm ops h
  obtain ⟨b, hkeeps, hsize, hlimit⟩ := History.exists_keeps_ofOps hm ops
  have hmapping : h.mapping = ofBlock b := hkeeps.mapping_eq
  refine ⟨b, hmapping, hsize ▸ isLeast_roundUp size.toNat, ?_, ?_, exists_write_iff hlimit,
    hkeeps.contents_eq, ?_, ?_⟩
  · rw [hmapping]
    simp [ofBlock]
  · intro op
    rw [hmapping, op.run_act hlimit]
  · intro op s m' hrun
    rw [hmapping, op.run_act hlimit] at hrun
    rw [hmapping, eq_of_shown_eq_error hrun]
  · intro ops'
    have hmade : (h.enter .makeExecutable).Keeps b.makeExecutable := hkeeps.makeExecutable hlimit
    have hsame : b.makeExecutable.size < sizeLimit := hlimit
    rw [History.ofOps, List.foldl_append]
    exact (hmade.foldl_of_executable hsame rfl ops').mapping_eq

end Mapping

end Formula.Block
