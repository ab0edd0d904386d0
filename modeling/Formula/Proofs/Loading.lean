import Formula.Proofs.Code.Accounts
import Formula.Proofs.Mapping
import Formula.Proofs.Routine

/-!
# Loading code

Code is loaded in three steps: fresh pages are asked for, the code is copied to their start, and
they are made executable. Fresh pages are as long as the code at least and can be written, so the
copy is never refused. What can go wrong is that there is no code or that the pages are not to be
had. `Mapping.ofCode` does this on the pages of any system, and `Block.ofCode` agrees with it for
the system that grants what is below `Block.allocationLimit`.
-/

namespace Formula

namespace Block

/-- An executable block of no more pages than needed, with the given bytes and zeros behind them. -/
structure Carries (b : Block) (bytes : List UInt8) : Prop where
  executable : b.executable = true
  size : IsLeast {n | 4096 ∣ n ∧ bytes.length ≤ n} b.size
  bytes : b.bytes 0 b.size = bytes ++ List.replicate (b.size - bytes.length) 0

def fresh (size : Nat) : Block := ⟨roundUp size, false, fun _ ↦ 0⟩

/-- Fresh pages with the code at their start. -/
def filled (code : Array UInt8) : Block :=
  { fresh code.size with contents := overlay (fun _ ↦ 0) 0 code.toList }

theorem write_fresh (code : Array UInt8) : (fresh code.size).write 0 code = .ok (filled code) := by
  rcases (fresh code.size).write_cases 0 code with ⟨-, -, hok⟩ | ⟨hnot, -⟩
  · exact hok
  · have hfits : 0 + code.size ≤ (fresh code.size).size :=
      (Nat.zero_add _).trans_le (le_roundUp code.size)
    exact absurd ⟨rfl, hfits⟩ hnot

/-- What loading comes to. -/
theorem ofCode_cases (code : Array UInt8) :
    (code.size = 0 ∧ ofCode code = .error .invalidSize) ∨
      (code.size ≠ 0 ∧ sizeLimit ≤ code.size + pageSize ∧ ofCode code = .error .sizeOverflow) ∨
      (code.size ≠ 0 ∧ code.size + pageSize < sizeLimit ∧
        ofCode code = if roundUp code.size < allocationLimit then .ok (filled code).makeExecutable
          else .error .allocationFailed) := by
  unfold ofCode new
  by_cases hzero : code.size = 0
  · exact .inl ⟨hzero, by rw [if_pos hzero]; rfl⟩
  by_cases hover : sizeLimit ≤ code.size + pageSize
  · exact .inr (.inl ⟨hzero, hover, by rw [if_neg hzero, if_pos hover]; rfl⟩)
  · refine .inr (.inr ⟨hzero, not_le.1 hover, ?_⟩)
    rw [if_neg hzero, if_neg hover]
    by_cases hlimit : allocationLimit ≤ roundUp code.size
    · rw [if_pos hlimit, if_neg hlimit.not_gt]
      rfl
    · rw [if_neg hlimit, if_pos (not_le.1 hlimit)]
      change (do let b ← (fresh code.size).write 0 code; return b.makeExecutable) = _
      rw [write_fresh]
      rfl

theorem ofCode_eq_invalidSize_iff (code : Array UInt8) :
    ofCode code = .error .invalidSize ↔ code.size = 0 := by
  have hcases := ofCode_cases code
  grind

theorem ofCode_ne_protectionFailed (code : Array UInt8) :
    ofCode code ≠ .error .protectionFailed := by
  have hcases := ofCode_cases code
  grind

theorem exists_ofCode {code : Array UInt8} (hsome : code.size ≠ 0)
    (hlimit : roundUp code.size < allocationLimit) : ∃ b, ofCode code = .ok b := by
  have hle := le_roundUp code.size
  rcases ofCode_cases code with ⟨hzero, -⟩ | ⟨-, hover, -⟩ | ⟨-, -, heq⟩
  · exact absurd hzero hsome
  · simp only [sizeLimit, pageSize, allocationLimit] at hover hlimit
    omega
  · exact ⟨_, heq.trans (if_pos hlimit)⟩

theorem carries_filled (code : Array UInt8) :
    (filled code).makeExecutable.Carries code.toList := by
  have hfits := le_roundUp code.size
  refine ⟨rfl, ?_, ?_⟩
  · rw [Array.length_toList]
    exact isLeast_roundUp code.size
  · simp only [filled, fresh, makeExecutable, Block.bytes, Nat.zero_add, Array.length_toList]
    apply List.ext_getElem
    · simp only [List.length_map, List.length_range, List.length_append, Array.length_toList,
        List.length_replicate]
      omega
    · intro i _ _
      by_cases hi : i < code.size
      · simp [overlay, hi]
      · simp [overlay, List.getElem_append, hi]

theorem carries_of_ofCode {code : Array UInt8} {b : Block} (h : ofCode code = .ok b) :
    b.Carries code.toList := by
  rcases ofCode_cases code with ⟨-, heq⟩ | ⟨-, -, heq⟩ | ⟨-, -, heq⟩
  · cases heq.symm.trans h
  · cases heq.symm.trans h
  · split at heq
    · cases heq.symm.trans h
      exact carries_filled code
    · cases heq.symm.trans h

namespace Mapping

/-- Fresh pages with code at their start, made executable. -/
def ofCode (grants : Nat → Bool) (code : Array UInt8) : Except Stop Mapping :=
  match create grants (UInt64.ofNat code.size) with
  | .error e => .error (.refused e)
  | .ok m =>
    match (do write 0 code; makeExecutable : Work Unit).run m with
    | .error s _ => .error s
    | .ok _ m => .ok m

theorem run_write_fresh {code : Array UInt8} (h : roundUp code.size < sizeLimit) :
    (write 0 code).run (ofBlock (fresh code.size)) = .ok () (ofBlock (filled code)) := by
  rw [run_write h, write_fresh]
  rfl

/-- What loading on the pages of a system comes to. -/
theorem ofCode_cases (grants : Nat → Bool) {code : Array UInt8} (hsize : code.size < 2 ^ 64) :
    (code.size = 0 ∧ ofCode grants code = .error (.refused .invalidSize)) ∨
      (code.size ≠ 0 ∧ sizeLimit ≤ code.size + pageSize ∧
        ofCode grants code = .error (.refused .sizeOverflow)) ∨
      (code.size ≠ 0 ∧ code.size + pageSize < sizeLimit ∧
        ofCode grants code = if grants (roundUp code.size)
          then .ok (ofBlock (filled code).makeExecutable)
          else .error (.refused .allocationFailed)) := by
  have hnat : (UInt64.ofNat code.size).toNat = code.size := UInt64.toNat_ofNat_of_lt' hsize
  have hzero : UInt64.ofNat code.size = 0 ↔ code.size = 0 := by
    rw [← UInt64.toNat_inj, hnat]
    rfl
  have hcreate := create_cases grants (UInt64.ofNat code.size)
  rw [hnat, ne_eq, hzero] at hcreate
  unfold ofCode
  rcases hcreate with ⟨hz, heq⟩ | ⟨hz, hover, heq⟩ | ⟨hz, hfits, heq⟩
  · exact .inl ⟨hz, by rw [heq]⟩
  · exact .inr (.inl ⟨hz, hover, by rw [heq]⟩)
  · refine .inr (.inr ⟨hz, hfits, ?_⟩)
    rw [heq]
    cases grants (roundUp code.size) with
    | false => rfl
    | true =>
        have hwrite := run_write_fresh (roundUp_lt_sizeLimit hfits)
        simp only [fresh] at hwrite
        simp only [if_true, EStateM.run_bind, hwrite, run_makeExecutable]

theorem ofCode_eq_invalidSize_iff (grants : Nat → Bool) {code : Array UInt8}
    (hsize : code.size < 2 ^ 64) :
    ofCode grants code = .error (.refused .invalidSize) ↔ code.size = 0 := by
  have hcases := ofCode_cases grants hsize
  grind

theorem ofCode_of_grants {grants : Nat → Bool} {code : Array UInt8} (hsome : code.size ≠ 0)
    (hfits : code.size + 4096 < 2 ^ 64) (hgrant : grants (roundUp code.size) = true) :
    ofCode grants code = .ok (ofBlock (filled code).makeExecutable) := by
  have hsize : code.size < 2 ^ 64 := by omega
  rcases ofCode_cases grants hsize with ⟨hzero, -⟩ | ⟨-, hover, -⟩ | ⟨-, -, heq⟩
  · exact absurd hzero hsome
  · exact absurd hfits hover.not_gt
  · exact heq.trans (if_pos hgrant)

/-- Fresh pages take the code that they were made for. -/
theorem exists_run_write {grants : Nat → Bool} {code : Array UInt8} {m : Mapping}
    (hsize : code.size < 2 ^ 64) (h : create grants (UInt64.ofNat code.size) = .ok m) :
    ∃ m', (write 0 code).run m = .ok () m' := by
  obtain ⟨rfl, hlimit⟩ := create_eq_ok h
  rw [UInt64.toNat_ofNat_of_lt' hsize] at hlimit ⊢
  exact ⟨_, run_write_fresh hlimit⟩

/-- Blocks are the pages of a system that grants what is below the limit. -/
theorem ofCode_eq {code : Array UInt8} (hsize : code.size < 2 ^ 64) :
    ofCode (fun n ↦ n < allocationLimit) code =
      ((Block.ofCode code).map ofBlock).mapError .refused := by
  have hpages := ofCode_cases (fun n ↦ n < allocationLimit) hsize
  have hblock := Block.ofCode_cases code
  simp only [decide_eq_true_iff] at hpages
  grind [Except.map, Except.mapError]

end Mapping

end Block

theorem Code.le_size_code_of_assemble {r : RootedGraph} {t : FunctionTable} {s : Switches}
    {asm : Assembly} (h : (assemble r t s).1 = .ok asm) : 24 ≤ asm.code.size := by
  rw [size_code_of_assemble h]
  omega

theorem Routine.exists_load {a : Code.Assembly} (natives : UInt64 → Option (Double → Double))
    (hsome : a.code.size ≠ 0) (hlimit : Block.roundUp a.code.size < Block.allocationLimit) :
    ∃ routine, load a natives = .ok routine ∧ routine.block.Carries a.code.toList := by
  obtain ⟨b, hb⟩ := Block.exists_ofCode hsome hlimit
  rw [load_eq, hb]
  exact ⟨_, rfl, Block.carries_of_ofCode hb⟩

theorem Routine.load_eq_error_iff {a : Code.Assembly} {natives : UInt64 → Option (Double → Double)}
    {e : MemoryError} : load a natives = .error e ↔ Block.ofCode a.code = .error e := by
  rw [load_eq]
  cases Block.ofCode a.code <;> simp [Except.map]

theorem compile_eq_memory {text : String} {t : FunctionTable} {s : Switches} {e : MemoryError}
    (h : (compile text t s).1 = .error (.memory e)) :
    ∃ r asm, (Code.assemble r t s).1 = .ok asm ∧ Block.ofCode asm.code = .error e := by
  cases hparse : Expr.parse text with
  | error f =>
      rw [compile_of_parse_error hparse] at h
      cases h
  | ok expr =>
      rw [compile_of_parse hparse] at h
      cases hasm : (Code.assemble (expr.prepared t s) t s).1 with
      | error f =>
          rw [hasm] at h
          cases h
      | ok asm =>
          simp only [hasm] at h
          cases hload : Routine.load asm t.atAddress? with
          | ok routine =>
              rw [hload] at h
              cases h
          | error f =>
              rw [hload] at h
              cases h
              exact ⟨_, asm, hasm, Routine.load_eq_error_iff.1 hload⟩

theorem Code.Buffer.finalize_emitBytes (bytes : List UInt8) :
    (empty.emitBytes bytes).finalize = Block.ofCode bytes.toArray := by
  simp [finalize, empty, emitBytes]

/-- Loading fails for want of bytes exactly if there are none. Where the pages are granted, it gives
an executable block that carries the bytes; on no system is the copy refused. Code that has been
assembled has at least a prologue and an epilogue, so compiling never fails for the size of the code
nor for the rights of its pages. -/
theorem loading_maps_code (bytes : List UInt8) :
    ((Code.Buffer.empty.emitBytes bytes).finalize = .error .invalidSize ↔ bytes = []) ∧
      (bytes ≠ [] → Block.roundUp bytes.length < Block.allocationLimit →
        ∃ b, (Code.Buffer.empty.emitBytes bytes).finalize = .ok b ∧ b.Carries bytes) ∧
      (∀ stats natives,
        (Routine.load ⟨bytes.toArray, stats⟩ natives = .error .invalidSize ↔ bytes = []) ∧
        (bytes ≠ [] → Block.roundUp bytes.length < Block.allocationLimit →
          ∃ routine, Routine.load ⟨bytes.toArray, stats⟩ natives = .ok routine ∧
            routine.block.Carries bytes)) ∧
      (bytes.length < 2 ^ 64 →
        Block.Mapping.ofCode (fun n ↦ n < Block.allocationLimit) bytes.toArray =
          ((Code.Buffer.empty.emitBytes bytes).finalize.map .ofBlock).mapError .refused ∧
        ∀ grants,
          (Block.Mapping.ofCode grants bytes.toArray = .error (.refused .invalidSize) ↔
            bytes = []) ∧
          (bytes ≠ [] → bytes.length + 4096 < 2 ^ 64 →
            grants (Block.roundUp bytes.length) = true →
            ∃ b : Block, Block.Mapping.ofCode grants bytes.toArray = .ok (.ofBlock b) ∧
              b.Carries bytes) ∧
          ∀ m, Block.Mapping.create grants (.ofNat bytes.length) = .ok m →
            ∃ m', (Block.Mapping.write 0 bytes.toArray).run m = .ok () m') ∧
      ∀ text t s,
        (∀ r asm, (Code.assemble r t s).1 = .ok asm → ∃ body, asm.code.toList =
          X86.encodeAll (Code.Emitter.prologue ++ (body ++ Code.Emitter.epilogue))) ∧
        (compile text t s).1 ≠ .error (.memory .invalidSize) ∧
        (compile text t s).1 ≠ .error (.memory .protectionFailed) := by
  have hsize : bytes.toArray.size = bytes.length := List.size_toArray
  have hzero : bytes.toArray.size = 0 ↔ bytes = [] := by rw [hsize, List.length_eq_zero_iff]
  rw [Code.Buffer.finalize_emitBytes]
  refine ⟨?_, ?_, ?_, ?_, ?_⟩
  · rw [Block.ofCode_eq_invalidSize_iff, hzero]
  · intro hsome hlimit
    obtain ⟨b, hb⟩ := Block.exists_ofCode (mt hzero.1 hsome) (hsize ▸ hlimit)
    exact ⟨b, hb, Block.carries_of_ofCode hb⟩
  · intro stats natives
    refine ⟨?_, fun hsome hlimit ↦ ?_⟩
    · rw [Routine.load_eq_error_iff, Block.ofCode_eq_invalidSize_iff, hzero]
    · exact Routine.exists_load natives (mt hzero.1 hsome) (hsize ▸ hlimit)
  · intro hlen
    refine ⟨Block.Mapping.ofCode_eq (hsize ▸ hlen), fun grants ↦ ⟨?_, ?_, ?_⟩⟩
    · rw [Block.Mapping.ofCode_eq_invalidSize_iff grants (hsize ▸ hlen), hzero]
    · intro hsome hfits hgrant
      exact ⟨_, Block.Mapping.ofCode_of_grants (mt hzero.1 hsome) (hsize ▸ hfits) (hsize ▸ hgrant),
        Block.carries_filled bytes.toArray⟩
    · intro m hm
      exact Block.Mapping.exists_run_write (hsize ▸ hlen) (hsize ▸ hm)
  · intro text t s
    refine ⟨fun r asm hasm ↦ ⟨_, Code.toList_code_of_assemble hasm⟩, fun herr ↦ ?_, fun herr ↦ ?_⟩
    · obtain ⟨r, asm, hasm, hcode⟩ := compile_eq_memory herr
      have hlong := Code.le_size_code_of_assemble hasm
      have hempty := (Block.ofCode_eq_invalidSize_iff asm.code).1 hcode
      omega
    · obtain ⟨r, asm, hasm, hcode⟩ := compile_eq_memory herr
      exact Block.ofCode_ne_protectionFailed asm.code hcode

/-- Code that is one byte longer than a page takes two pages. -/
theorem loading_maps_code_of_second_page :
    ∃ b, (Code.Buffer.empty.emitBytes (List.replicate 4097 0xc3)).finalize = .ok b ∧
      b.Carries (List.replicate 4097 0xc3) ∧ b.size = 8192 := by
  have hsome : List.replicate 4097 (0xc3 : UInt8) ≠ [] :=
    List.cons_ne_nil _ _
  have hlimit : Block.roundUp (List.replicate 4097 (0xc3 : UInt8)).length <
      Block.allocationLimit := by
    rw [List.length_replicate]
    decide
  obtain ⟨-, hload, -⟩ := loading_maps_code (List.replicate 4097 0xc3)
  obtain ⟨b, hb, hcarries⟩ := hload hsome hlimit
  refine ⟨b, hb, hcarries, hcarries.size.unique ?_⟩
  rw [List.length_replicate]
  exact Block.isLeast_roundUp 4097

end Formula
