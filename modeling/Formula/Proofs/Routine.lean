import Formula.Command.Execute
import Formula.Proofs.Code.Simulation
import Formula.Proofs.Graph.Fold
import Formula.Proofs.Graph.Value

/-!
# Compiled formulas have their values

A block of executable memory starts with the code and has zeros behind it. A host serves a formula
if its calls return what the functions compute, whatever else they do that calls may do, and if its
stack has room (`Host.Serves`). On such a host the bytes of the block give the value of the formula
that was assembled. Folding keeps that value, and so does every choice of switches
(`switches_keep_meaning`). The hosts on which routines are run here are such hosts: code is at least
eight bytes long for each operation on a path, so it fits in a block only if there is room.
-/

namespace Formula

open X86 Machine Code

namespace Code

theorem le_length_encodeAll_combineCode (op : BinOp) (leftFirst : Bool) (h : Handle) :
    8 ≤ (encodeAll (Emitter.combineCode op leftFirst h)).length := by
  cases h <;> cases leftFirst <;> simp [Emitter.combineCode, Pool.restore, Instr.encode]

theorem le_length_encodeAll_callCode (address : UInt64) (n : Nat) :
    8 ≤ (encodeAll (Emitter.callCode address n)).length := by
  rw [Emitter.callCode]
  split
  · simp only [encodeAll_append, encodeAll_cons, Instr.encode, List.length_append, List.length_cons,
      length_littleEndian]
    omega
  · simp [Instr.encode]

/-- Each operation on a path of a formula takes at least eight bytes. -/
theorem Plan.height_le_length (t : FunctionTable) (P : Plan) (p : Pool) :
    8 * P.tree.height ≤ (encodeAll (P.code t p)).length := by
  induction P generalizing p with
  | const v => exact Nat.zero_le _
  | var v => exact Nat.zero_le _
  | bin op leftFirst force P Q ihP ihQ =>
      have hP := ihP p
      have hQ := ihQ (p.stash force).2
      have hcombine := le_length_encodeAll_combineCode op leftFirst (p.stash force).1
      rw [height_tree_bin]
      simp only [code, encodeAll_append, List.length_append]
      omega
  | call name P ih =>
      have hP := ih p
      have hcall := le_length_encodeAll_callCode ((t.address? name).getD 0) p.pendingSpills
      simp only [tree, Tree.height, code, encodeAll_append, List.length_append]
      omega

end Code

namespace Block

theorem le_roundUp (size : Nat) : size ≤ roundUp size := by
  simp only [roundUp, pageSize]
  omega

/-- An executable block starts with its code; zeros follow. -/
theorem bytes_ofCode {code : Array UInt8} {b : Block} (h : ofCode code = .ok b) :
    code.size < allocationLimit ∧
      b.bytes 0 b.size = code.toList ++ List.replicate (b.size - code.size) 0 := by
  have hfits := le_roundUp code.size
  simp only [ofCode, new] at h
  split at h
  · cases h
  split at h
  · cases h
  split at h
  · cases h
  next hlimit =>
    have hwrite : ¬ roundUp code.size < 0 + code.size := by omega
    simp only [write, hwrite, bind, Except.bind, Bool.false_eq_true, if_false, pure,
      Except.pure, Except.ok.injEq] at h
    subst h
    refine ⟨by omega, ?_⟩
    simp only [makeExecutable, bytes]
    apply List.ext_getElem
    · simp only [List.length_map, List.length_range, List.length_append, Array.length_toList,
        List.length_replicate]
      omega
    · intro i _ _
      by_cases hi : i < code.size
      · simp [hi]
      · simp [List.getElem_append, hi]

end Block

namespace FunctionTable

/-- An address belongs to one function. -/
def Coherent (t : FunctionTable) : Prop :=
  ∀ e ∈ t.entries, ∀ e' ∈ t.entries, e.2.address = e'.2.address → e.2.apply = e'.2.apply

theorem mem_of_lookup {name : String} {f : Native} {es : List (String × Native)}
    (h : lookup name es = some f) : (name, f) ∈ es := by
  induction es with
  | nil => cases h
  | cons e es ih =>
      obtain ⟨other, g⟩ := e
      rw [lookup] at h
      split at h
      · next heq =>
          cases h
          exact heq ▸ List.mem_cons_self
      · exact List.mem_cons_of_mem _ (ih h)

theorem mem_insert {name : String} {f : Native} {e : String × Native}
    {es : List (String × Native)} (h : e ∈ insert name f es) : e = (name, f) ∨ e ∈ es := by
  induction es with
  | nil => exact .inl (List.mem_singleton.1 h)
  | cons e' es ih =>
      obtain ⟨other, g⟩ := e'
      rw [insert] at h
      split at h
      · grind
      · split at h <;> grind

theorem mem_foldl_register {e : String × Native} (es : List (String × Native)) (t : FunctionTable)
    (h : e ∈ (es.foldl (fun t (name, f) ↦ t.register name f) t).entries) :
    e ∈ es ∨ e ∈ t.entries := by
  induction es generalizing t with
  | nil => exact .inr h
  | cons e' es ih =>
      obtain ⟨name, f⟩ := e'
      rcases ih (t.register name f) h with hmem | hmem
      · exact .inl (List.mem_cons_of_mem _ hmem)
      · rcases mem_insert hmem with rfl | hmem
        · exact .inl List.mem_cons_self
        · exact .inr hmem

theorem coherent_standard : standard.Coherent := by
  have hentry : ∀ e ∈ standard.entries, ∃ i, ∃ h : i < builtins.length,
      e.2 = ⟨UInt64.ofNat (i + 1), builtins[i].2⟩ := by
    intro e he
    rcases mem_foldl_register builtinNatives empty he with hmem | hmem
    · obtain ⟨⟨⟨name, f⟩, i⟩, hi, rfl⟩ := List.mem_map.1 hmem
      obtain ⟨-, hlt, hget⟩ := List.mem_zipIdx hi
      have hf : f = builtins[i].2 := congrArg Prod.snd hget
      exact ⟨i, by simpa using hlt, congrArg (Native.mk (UInt64.ofNat (i + 1))) hf⟩
    · cases hmem
  intro e he e' he' haddr
  obtain ⟨i, hi, hf⟩ := hentry e he
  obtain ⟨j, hj, hf'⟩ := hentry e' he'
  have hlen : builtins.length = 18 := rfl
  have hij : i = j := by
    rw [hf, hf'] at haddr
    have := congrArg UInt64.toNat haddr
    simp only [UInt64.toNat_ofNat'] at this
    omega
  subst hij
  rw [hf, hf']

/-- The function that a call reaches is the one whose address was written into the code. -/
theorem Coherent.atAddress? {t : FunctionTable} (ht : t.Coherent) {name : String} {f : Native}
    (hf : t.get? name = some f) : t.atAddress? f.address = some f.apply := by
  have hmem : (name, f) ∈ t.entries := mem_of_lookup hf
  rw [FunctionTable.atAddress?]
  cases hfind : t.entries.find? fun (_, g) ↦ g.address = f.address with
  | none =>
      have := List.find?_eq_none.1 hfind _ hmem
      simp at this
  | some e =>
      have haddr : e.2.address = f.address := by simpa using List.find?_some hfind
      exact congrArg some (ht e (List.mem_of_find?_eq_some hfind) _ hmem haddr)

end FunctionTable

namespace Host

/-- A host that a routine for the formula can run on: calls return what the functions of the table
compute, and may do all that calls may do; a routine finds its inputs where it looks for them; the
stack has a word for each operation and call on a path, besides the frame. -/
structure Serves (host : Host) (t : FunctionTable) (e : Tree) : Prop where
  calls : host.calls.Conforms t
  x : ∀ x y, (host.enter x y).getXmm xmm0 = x.bits
  y : ∀ x y, (host.enter x y).getXmm xmm1 = y.bits
  room : ∀ x y, 8 * (e.height + 3) ≤ (host.enter x y).rsp.toNat

theorem Serves.of_height_le {host : Host} {t : FunctionTable} {e e' : Tree} (h : host.Serves t e)
    (hle : e'.height ≤ e.height) : host.Serves t e' where
  calls := h.calls
  x := h.x
  y := h.y
  room x y := by
    have := h.room x y
    omega

end Host

/-- Where an address belongs to one function, it is enough that calls of an address return what the
function there computes. -/
theorem FunctionTable.Coherent.conforms {t : FunctionTable} (ht : t.Coherent) {model : CallModel}
    (hmodel : ∀ address f, t.atAddress? address = some f → ∀ m, ∃ m',
      model address m = some m' ∧ m.Returns (f ⟨m.getXmm xmm0⟩).bits m') : model.Conforms t :=
  fun _ f hf m ↦ hmodel f.address f.apply (ht.atAddress? hf) m

theorem exists_returns_callNative {natives : UInt64 → Option (Double → Double)} {address : UInt64}
    {f : Double → Double} (hf : natives address = some f) (m : Machine) :
    ∃ m', callNative natives address m = some m' ∧ m.Returns (f ⟨m.getXmm xmm0⟩).bits m' := by
  rw [callNative, hf]
  refine ⟨_, rfl, rfl, rfl, rfl, fun a ha ↦ ?_⟩
  rw [Memory.read_clearBelow, if_pos ha]

theorem Host.serves_ofNatives {t : FunctionTable} (ht : t.Coherent) {e : Tree}
    (hroom : 8 * (e.height + 4) ≤ 2 ^ 64) : (ofNatives t.atAddress?).Serves t e where
  calls := ht.conforms fun _ _ ↦ exists_returns_callNative
  x _ _ := rfl
  y _ _ := rfl
  room x y := by
    have hrsp : ((ofNatives t.atAddress?).enter x y).rsp.toNat = 0xfffffffffffffff8 := rfl
    omega

theorem Routine.load_eq (a : Assembly) (natives : UInt64 → Option (Double → Double)) :
    load a natives = (Block.ofCode a.code).map fun b ↦ ⟨a.code, b, a.stats, natives⟩ := by
  have hcode : (Buffer.empty.emitBytes a.code.toList).code = a.code := by
    simp [Buffer.empty, Buffer.emitBytes]
  rw [load, Buffer.finalize, hcode]
  cases Block.ofCode a.code <;> rfl

theorem Routine.block_of_load {a : Assembly} {natives : UInt64 → Option (Double → Double)}
    {routine : Routine} (h : load a natives = .ok routine) :
    Block.ofCode a.code = .ok routine.block ∧ routine.natives = natives := by
  rw [load_eq] at h
  cases hblock : Block.ofCode a.code with
  | error e =>
      rw [hblock] at h
      cases h
  | ok b =>
      rw [hblock] at h
      cases h
      exact ⟨rfl, rfl⟩

section Load

variable {r : RootedGraph} {t : FunctionTable} {s : Switches} {asm : Assembly} {routine : Routine}
  {natives : UInt64 → Option (Double → Double)}

/-- On every host that serves the formula, the bytes of the block give the value of the formula that
was assembled. -/
theorem Routine.evalOn_of_load (hasm : (assemble r t s).1 = .ok asm)
    (hload : load asm natives = .ok routine) {host : Host} (hhost : host.Serves t r.tree)
    (x y : Double) : ∃ v, r.tree.value t x y = some v ∧ routine.evalOn host x y = .ok v := by
  obtain ⟨-, hbytes⟩ := Block.bytes_ofCode (block_of_load hload).1
  obtain ⟨is, m', hcode, his, hsteps, hvalue⟩ :=
    exists_steps_of_assemble hasm hhost.calls (hhost.room x y)
  refine ⟨⟨m'.getXmm xmm0⟩, ?_, ?_⟩
  · rw [hhost.x, hhost.y] at hvalue
    exact hvalue
  · simp only [evalOn, hbytes, hcode, run_encodeAll his, hsteps]
    rfl

/-- The code fits in a block, so the formula is not too deep for a stack as large as memory. -/
theorem height_le_of_load (hasm : (assemble r t s).1 = .ok asm)
    (hload : Routine.load asm natives = .ok routine) : 8 * (r.tree.height + 4) ≤ 2 ^ 64 := by
  obtain ⟨hsize, -⟩ := Block.bytes_ofCode (Routine.block_of_load hload).1
  have hheight := (planOf r s).height_le_length t (.new s.useRegisters)
  have hlen := congrArg List.length (toList_code_of_assemble hasm)
  simp only [Block.allocationLimit] at hsize
  simp only [routineCode, encodeAll_append, List.length_append, Array.length_toList,
    tree_planOf] at hlen hheight
  omega

end Load

def Expr.prepared (e : Expr) (t : FunctionTable) (s : Switches) : RootedGraph :=
  if s.useConstFolding then e.toGraph.fold t else e.toGraph

theorem Expr.sameValue_prepared (e : Expr) (t : FunctionTable) (s : Switches) :
    Tree.SameValue t (e.prepared t s).tree e.toGraph.tree := by
  rw [prepared]
  split
  · exact e.toGraph.sameValue_fold t
  · exact fun _ _ ↦ rfl

theorem Expr.height_prepared_le (e : Expr) (t : FunctionTable) (s : Switches) :
    (e.prepared t s).tree.height ≤ e.tree.height := by
  rw [prepared, ← e.tree_toGraph]
  split
  · rw [RootedGraph.tree_fold]
    exact Tree.height_fold_le t _
  · exact le_rfl

theorem Tree.SameValue.known_iff {t : FunctionTable} {a b : Tree} (h : a.SameValue t b) :
    a.Known t ↔ b.Known t := by
  rw [← exists_value_iff t 0 0 a, ← exists_value_iff t 0 0 b, h 0 0]

section

variable {text : String} {t : FunctionTable} {s : Switches}

theorem compile_of_parse_error {f : ReadError} (h : Expr.parse text = .error f) :
    (compile text t s).1 = .error (.read f) := by
  rw [compile, prepare, h]
  rfl

theorem compile_of_parse {e : Expr} (h : Expr.parse text = .ok e) :
    (compile text t s).1 = match (assemble (e.prepared t s) t s).1 with
      | .error f => .error (.emit f)
      | .ok asm => (Routine.load asm t.atAddress?).mapError .memory := by
  rw [compile, prepare, h]
  rfl

/-- A text is compiled if it can be read, its functions are known and its code gets its memory. -/
theorem exists_compile_iff (hmem : ∀ f, (compile text t s).1 ≠ .error (.memory f)) :
    (∃ r, (compile text t s).1 = .ok r) ↔
      ∃ e, Expr.parse text = .ok e ∧ e.toGraph.tree.Known t := by
  cases hparse : Expr.parse text with
  | error f => simp [compile_of_parse_error hparse]
  | ok e =>
      have hknown := (e.sameValue_prepared t s).known_iff
      rw [compile_of_parse hparse] at hmem ⊢
      by_cases h : e.toGraph.tree.Known t
      · obtain ⟨asm, hasm, -⟩ := assemble_of_known s (hknown.2 h)
        simp only [hasm] at hmem ⊢
        cases hload : Routine.load asm t.atAddress? with
        | error f => exact absurd (by rw [hload]; rfl) (hmem f)
        | ok r => simp [Except.mapError, h]
      · obtain ⟨name, hasm⟩ := assemble_of_not_known s (mt hknown.1 h)
        simp [hasm, h]

theorem exists_load_of_compile {r : Routine} (h : (compile text t s).1 = .ok r) :
    ∃ e asm, Expr.parse text = .ok e ∧ (assemble (e.prepared t s) t s).1 = .ok asm ∧
      Routine.load asm t.atAddress? = .ok r := by
  cases hparse : Expr.parse text with
  | error f =>
      rw [compile_of_parse_error hparse] at h
      cases h
  | ok e =>
      rw [compile_of_parse hparse] at h
      cases hasm : (assemble (e.prepared t s) t s).1 with
      | error f =>
          rw [hasm] at h
          cases h
      | ok asm =>
          simp only [hasm] at h
          cases hload : Routine.load asm t.atAddress? with
          | error f =>
              rw [hload] at h
              cases h
          | ok routine =>
              rw [hload] at h
              cases h
              exact ⟨e, asm, rfl, hasm, hload⟩

/-- On every host that serves the formula, a compiled routine gives what evaluation gives. -/
theorem evalOn_of_compile {r : Routine} (h : (compile text t s).1 = .ok r) {e : Expr}
    (hparse : Expr.parse text = .ok e) {host : Host} (hhost : host.Serves t e.tree) (x y : Double) :
    ∃ v, e.toGraph.evaluate t x y = .ok v ∧ r.evalOn host x y = .ok v := by
  obtain ⟨e', asm, hparse', hasm, hload⟩ := exists_load_of_compile h
  obtain rfl : e = e' := Except.ok.inj (hparse.symm.trans hparse')
  obtain ⟨v, hvalue, heval⟩ :=
    Routine.evalOn_of_load hasm hload (hhost.of_height_le (e.height_prepared_le t s)) x y
  rw [e.sameValue_prepared t s x y] at hvalue
  exact ⟨v, RootedGraph.evaluate_eq_ok_iff.2 hvalue, heval⟩

/-- With addresses that tell functions apart, routines as they are run here give what evaluation
gives. -/
theorem eval_of_compile (ht : t.Coherent) {r : Routine} (h : (compile text t s).1 = .ok r) :
    ∃ e, Expr.parse text = .ok e ∧
      ∀ x y, ∃ v, e.toGraph.evaluate t x y = .ok v ∧ r.eval x y = .ok v := by
  obtain ⟨e, asm, hparse, hasm, hload⟩ := exists_load_of_compile h
  have hserves := Host.serves_ofNatives ht (height_le_of_load hasm hload)
  refine ⟨e, hparse, fun x y ↦ ?_⟩
  obtain ⟨v, hvalue, heval⟩ := Routine.evalOn_of_load hasm hload hserves x y
  rw [e.sameValue_prepared t s x y] at hvalue
  refine ⟨v, RootedGraph.evaluate_eq_ok_iff.2 hvalue, ?_⟩
  rw [Routine.eval, (Routine.block_of_load hload).2]
  exact heval

end

namespace Command

theorem switches_ne_mismatch (o : CompileOptions) (config : Option (Except FileError String))
    (a b : Double) : o.switches config ≠ .error (.mismatch a b) := by
  rcases config with _ | f | text
  · simp [CompileOptions.switches]
  · simp [CompileOptions.switches]
  · cases h : Switches.ofToml? text <;> simp [CompileOptions.switches, h]

/-- The interpreter agrees with a routine that was compiled from the same text. -/
theorem runWork_ne_mismatch {t : FunctionTable} {formula : String} {s : Switches} {r : Routine}
    (h : (compile formula t s).1 = .ok r) {host : Host}
    (hhost : ∀ e, Expr.parse formula = .ok e → host.Serves t e.tree) (x y : Double) (check : Bool)
    (stats : Option StatsFormat) (a b : Double) :
    runWork t host formula x y check stats r ≠ .error (.mismatch a b) := by
  obtain ⟨e, -, hparse, -⟩ := exists_load_of_compile h
  obtain ⟨v, hvalue, hrun⟩ := evalOn_of_compile h hparse (hhost e hparse) x y
  have hchecked : checked t formula x y v = .ok () := by
    simp only [checked, hparse, hvalue, Double.agrees_self, if_true]
  simp only [runWork, hrun, hchecked]
  cases check <;> rcases stats with _ | _ | _ <;> rintro ⟨⟩

theorem work_ne_mismatch (t : FunctionTable) {text : String} {host : Host}
    (hhost : ∀ e, Expr.parse text = .ok e → host.Serves t e.tree)
    (config : Option (Except FileError String)) (x y : Double) (check : Bool)
    (stats : Option StatsFormat) (options : CompileOptions) (a b : Double) :
    (Action.work t host config (.run text x y check stats options)).1 ≠
      .error (.mismatch a b) := by
  rw [Action.work, withRoutine]
  cases hs : options.switches config with
  | error f =>
      rintro ⟨⟩
      exact switches_ne_mismatch options config a b hs
  | ok s =>
      cases hc : (compile text t s).1 with
      | error f => simp [hc]
      | ok r => simpa [hc] using runWork_ne_mismatch hc hhost x y check stats a b

end Command

/-- Switches change no meaning. If its code gets its memory, a text is compiled under all switches
or under none. On all hosts whose calls return what the functions of the table compute, whatever
else they do that calls may do, its routines give the values that evaluation gives, bit for bit. So
a command that checks its result finds no mismatch. -/
theorem switches_keep_meaning (t : FunctionTable) (text : String) (s₁ s₂ : Switches) :
    ((∀ f, (compile text t s₁).1 ≠ .error (.memory f)) →
        (∀ f, (compile text t s₂).1 ≠ .error (.memory f)) →
        ((∃ r, (compile text t s₁).1 = .ok r) ↔ ∃ r, (compile text t s₂).1 = .ok r)) ∧
      (∀ r₁ r₂, (compile text t s₁).1 = .ok r₁ → (compile text t s₂).1 = .ok r₂ →
        ∃ e, Expr.parse text = .ok e ∧ ∀ host₁ host₂ : Host, host₁.Serves t e.tree →
          host₂.Serves t e.tree → ∀ x y, ∃ v, e.toGraph.evaluate t x y = .ok v ∧
            r₁.evalOn host₁ x y = .ok v ∧ r₂.evalOn host₂ x y = .ok v) ∧
      ∀ host : Host, (∀ e, Expr.parse text = .ok e → host.Serves t e.tree) →
        ∀ config x y check stats options a b,
          (Command.Action.work t host config (.run text x y check stats options)).1 ≠
            .error (.mismatch a b) := by
  refine ⟨fun hmem₁ hmem₂ ↦ ?_, fun r₁ r₂ h₁ h₂ ↦ ?_, fun _ ↦ Command.work_ne_mismatch t⟩
  · rw [exists_compile_iff hmem₁, exists_compile_iff hmem₂]
  · obtain ⟨e, -, hparse, -⟩ := exists_load_of_compile h₁
    refine ⟨e, hparse, fun host₁ host₂ hhost₁ hhost₂ x y ↦ ?_⟩
    obtain ⟨v, hvalue, heval₁⟩ := evalOn_of_compile h₁ hparse hhost₁ x y
    obtain ⟨w, hvalue', heval₂⟩ := evalOn_of_compile h₂ hparse hhost₂ x y
    obtain rfl : v = w := Except.ok.inj (hvalue.symm.trans hvalue')
    exact ⟨v, hvalue, heval₁, heval₂⟩

/-- Calls leave their argument, and nothing else, in every other register. -/
def echoing : Host where
  calls address m := (FunctionTable.standard.atAddress? address).map fun f ↦
    let a := m.getXmm xmm0
    ⟨a, m.rsp, m.rbp, #v[(f ⟨a⟩).bits, a, a, a, a, a, a, a], m.memory, []⟩
  enter := entry

/-- A call that can be folded beside calls that cannot, on two hosts. -/
theorem switches_keep_meaning_of_calls :
    ∃ e r₁ r₂, Expr.parse "abs(y)-(x+abs(2)*sqrt(y))" = .ok e ∧
      (compile "abs(y)-(x+abs(2)*sqrt(y))" .standard {}).1 = .ok r₁ ∧
      (compile "abs(y)-(x+abs(2)*sqrt(y))" .standard .unoptimized).1 = .ok r₂ ∧
      Host.standard.Serves .standard e.tree ∧ echoing.Serves .standard e.tree ∧
      ∀ x y, ∃ v, e.toGraph.evaluate .standard x y = .ok v ∧ r₁.evalOn .standard x y = .ok v ∧
        r₂.evalOn echoing x y = .ok v := by
  have hsome : ∀ s ∈ [{}, Switches.unoptimized],
      (compile "abs(y)-(x+abs(2)*sqrt(y))" .standard s).1.toOption.isSome = true := by
    decide +kernel
  have hok : ∀ s ∈ [{}, Switches.unoptimized],
      ∃ r, (compile "abs(y)-(x+abs(2)*sqrt(y))" .standard s).1 = .ok r := by
    intro s hs
    have hs := hsome s hs
    cases hr : (compile "abs(y)-(x+abs(2)*sqrt(y))" .standard s).1 with
    | error f => simp [hr, Except.toOption] at hs
    | ok r => exact ⟨r, rfl⟩
  obtain ⟨r₁, h₁⟩ := hok {} (by simp)
  obtain ⟨r₂, h₂⟩ := hok .unoptimized (by simp)
  obtain ⟨-, hsame, -⟩ :=
    switches_keep_meaning .standard "abs(y)-(x+abs(2)*sqrt(y))" {} .unoptimized
  obtain ⟨e, hparse, heval⟩ := hsame r₁ r₂ h₁ h₂
  have hheight : (Expr.parse "abs(y)-(x+abs(2)*sqrt(y))").toOption.all (·.tree.height ≤ 8) := by
    decide +kernel
  have hroom : 8 * (e.tree.height + 4) ≤ 2 ^ 64 := by
    simp [hparse, Except.toOption] at hheight
    omega
  have hcoherent := FunctionTable.coherent_standard
  have hserves := Host.serves_ofNatives hcoherent hroom
  have hserves' : echoing.Serves .standard e.tree := by
    refine ⟨hcoherent.conforms fun address f hf m ↦ ?_, hserves.x, hserves.y, hserves.room⟩
    simp only [echoing, hf]
    exact ⟨_, rfl, rfl, rfl, rfl, fun _ _ ↦ rfl⟩
  exact ⟨e, r₁, r₂, hparse, h₁, h₂, hserves, hserves', heval _ _ hserves hserves'⟩

end Formula
