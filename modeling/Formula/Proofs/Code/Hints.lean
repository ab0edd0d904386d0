import Formula.Proofs.Code.Unknown

/-!
# The analysis of calls gives hints

Any tables may stand in for the analysis, as long as no call is missed: the depths may be anything,
and a node may count as one with a call though there is none in it. The order of operands and the
places where they are parked can then be others. But a value that must outlast a call is on the
stack, and calls are met in the same order. So the same formulas are assembled, the same function is
reported, and routines give the same values (`hints_change_no_result`).
-/

namespace Formula

open X86 Machine

namespace CallAnalysis

/-- Tables with an entry for each node, in place of an analysis. -/
def ofTables {n : Nat} (calls : Vector Bool n) (depths : Vector Nat n) : CallAnalysis :=
  ⟨calls.toArray, depths.toArray⟩

theorem hasCall_ofTables {n : Nat} (calls : Vector Bool n) (depths : Vector Nat n) (i : Fin n) :
    (ofTables calls depths).hasCall i = calls.get i := by
  simp [hasCall, ofTables, Array.getD_eq_getD_getElem?, Vector.get]

end CallAnalysis

namespace Code

variable {t : FunctionTable} {model : CallModel} {m : Machine}

/-- The routine of a safe plan gives the value of its formula. -/
theorem exists_run_routineCode (hmodel : model.Conforms t) {P : Plan} (hsafe : P.Safe)
    (hknown : P.tree.Known t) (s : Switches) (hroom : 8 * (P.tree.height + 3) ≤ m.rsp.toNat) :
    ∃ m', run model (encodeAll (routineCode t s P)) m = .ok m' ∧
      P.tree.value t ⟨m.getXmm xmm0⟩ ⟨m.getXmm xmm1⟩ = some ⟨m'.getXmm xmm0⟩ := by
  obtain ⟨m', hsteps, -, hout⟩ := exists_steps_routineBody hmodel.follows hsafe hknown s hroom
  refine ⟨m', ?_, hout.value_tree⟩
  rw [routineCode_eq, ← List.append_nil (encodeAll _),
    run_encodeAll (ret_not_mem_routineBody t s P), hsteps]

section

variable {r : RootedGraph} {s : Switches} {a : CallAnalysis} {asm : Assembly}
  (ha : ∀ i : Fin r.graph.size, (r.graph.unfold i).hasCall = true → a.hasCall i = true)

include ha

/-- With an analysis that misses no call, the function that is reported is the first one without an
entry that the formula calls. -/
theorem assembleWith_of_firstUnknown?_tree {name : String}
    (h : r.tree.firstUnknown? t = some name) :
    (assembleWith r t s a).1 = .error (.unknownFunction ⟨name⟩) := by
  apply assembleWith_of_firstUnknown?
  rw [← Plan.firstUnknown?_tree (rightCallsFirst_plan r.graph ha r.root), r.graph.tree_plan]
  exact h

theorem known_of_assembleWith (h : (assembleWith r t s a).1 = .ok asm) : r.tree.Known t := by
  rw [← Tree.firstUnknown?_eq_none_iff]
  by_contra hunknown
  obtain ⟨name, hname⟩ := Option.ne_none_iff_exists'.1 hunknown
  rw [assembleWith_of_firstUnknown?_tree ha hname] at h
  cases h

theorem exists_run_of_assembleWith (hasm : (assembleWith r t s a).1 = .ok asm)
    (hmodel : model.Conforms t) (hroom : 8 * (r.tree.height + 3) ≤ m.rsp.toNat) :
    ∃ m', run model asm.code.toList m = .ok m' ∧
      r.tree.value t ⟨m.getXmm xmm0⟩ ⟨m.getXmm xmm1⟩ = some ⟨m'.getXmm xmm0⟩ := by
  have hknown := known_of_assembleWith ha hasm
  obtain ⟨asm', hasm', hcode⟩ := assembleWith_of_known s a hknown
  obtain rfl : asm' = asm := Except.ok.inj (hasm'.symm.trans hasm)
  have htree : (r.graph.plan a r.root).tree = r.tree := r.graph.tree_plan a r.root
  obtain ⟨m', hrun, hvalue⟩ := exists_run_routineCode hmodel (r.graph.safe_plan ha r.root)
    (htree.symm ▸ hknown) s (htree.symm ▸ hroom)
  exact ⟨m', hcode ▸ hrun, htree ▸ hvalue⟩

end

/-- Tables that miss no call, whatever they say besides, change neither whether a formula is
assembled nor which function is reported, and the routine gives the same value for all inputs. -/
theorem hints_change_no_result (r : RootedGraph) (t : FunctionTable) (s : Switches)
    (calls : Vector Bool r.graph.size) (depths : Vector Nat r.graph.size)
    (hcalls : ∀ i : Fin r.graph.size, (r.graph.unfold i).hasCall = true → calls.get i = true) :
    (∀ f, (assembleWith r t s (.ofTables calls depths)).1 = .error f ↔
        (assemble r t s).1 = .error f) ∧
      ∀ asm, (assemble r t s).1 = .ok asm →
        ∃ asm', (assembleWith r t s (.ofTables calls depths)).1 = .ok asm' ∧
          ∀ (model : CallModel) (m : Machine), model.Conforms t →
            8 * (r.tree.height + 3) ≤ m.rsp.toNat →
            ∃ m₁ m₂, run model asm.code.toList m = .ok m₁ ∧
              run model asm'.code.toList m = .ok m₂ ∧ m₁.getXmm xmm0 = m₂.getXmm xmm0 ∧
              r.tree.value t ⟨m.getXmm xmm0⟩ ⟨m.getXmm xmm1⟩ = some ⟨m₁.getXmm xmm0⟩ := by
  have ha : ∀ i : Fin r.graph.size, (r.graph.unfold i).hasCall = true →
      (CallAnalysis.ofTables calls depths).hasCall i = true := by
    intro i hi
    rw [CallAnalysis.hasCall_ofTables]
    exact hcalls i hi
  have hrun : ∀ i : Fin r.graph.size, (r.graph.unfold i).hasCall = true →
      (CallAnalysis.run r.graph s.useCallDepth).hasCall i = true :=
    fun i hi ↦ (CallAnalysis.hasCall_run r.graph s.useCallDepth i).trans hi
  constructor
  · intro f
    cases hfirst : r.tree.firstUnknown? t with
    | none =>
        have hknown := Tree.firstUnknown?_eq_none_iff.1 hfirst
        obtain ⟨asm, hasm, -⟩ := assemble_of_known s hknown
        obtain ⟨asm', hasm', -⟩ := assembleWith_of_known s (.ofTables calls depths) hknown
        simp [hasm, hasm']
    | some name =>
        rw [assembleWith_of_firstUnknown?_tree ha hfirst, assemble_of_firstUnknown?_tree hfirst]
  · intro asm hasm
    obtain ⟨asm', hasm', -⟩ :=
      assembleWith_of_known s (.ofTables calls depths) (known_of_assemble hasm)
    refine ⟨asm', hasm', fun model m hmodel hroom ↦ ?_⟩
    rw [← assembleWith_run] at hasm
    obtain ⟨m₁, hrun₁, hvalue₁⟩ := exists_run_of_assembleWith hrun hasm hmodel hroom
    obtain ⟨m₂, hrun₂, hvalue₂⟩ := exists_run_of_assembleWith ha hasm' hmodel hroom
    have hsame := Option.some.inj (hvalue₁.symm.trans hvalue₂)
    exact ⟨m₁, m₂, hrun₁, hrun₂, congrArg Double.bits hsame, hvalue₁⟩

/-- A call on both sides, tables that see calls everywhere and call the first node the deepest, and
a function that clears every other register. -/
theorem hints_change_no_result_of_false_alarm :
    let r : RootedGraph :=
      ⟨⟨#[.var .x, .call "abs" 0, .var .y, .call "abs" 2, .bin .sub 1 3], by decide⟩,
        ⟨4, by decide⟩⟩
    let abs : Native := ⟨1, .abs⟩
    let t : FunctionTable := ⟨[("abs", abs)]⟩
    let model : CallModel := fun _ m ↦ some ⟨0, m.rsp, m.rbp,
      #v[(abs.apply ⟨m.getXmm xmm0⟩).bits, 0, 0, 0, 0, 0, 0, 0], m.memory, []⟩
    let hints : CallAnalysis := .ofTables #v[true, true, true, true, true] #v[9, 0, 0, 0, 0]
    model.Conforms t ∧ ∃ asm asm' m₁ m₂,
      (assemble r t ⟨true, true, true⟩).1 = .ok asm ∧
      (assembleWith r t ⟨true, true, true⟩ hints).1 = .ok asm' ∧
      run model asm.code.toList (.entry 2 (-3)) = .ok m₁ ∧
      run model asm'.code.toList (.entry 2 (-3)) = .ok m₂ ∧
      m₁.getXmm xmm0 = m₂.getXmm xmm0 := by
  intro r abs t model hints
  have hmodel : model.Conforms t := by
    intro name f hf m
    have habs : f = abs := by
      simp only [t, FunctionTable.get?, FunctionTable.lookup] at hf
      split at hf <;> simp_all
    subst habs
    exact ⟨_, rfl, rfl, rfl, rfl, fun _ _ ↦ rfl⟩
  have hknown : r.tree.Known t := ⟨⟨rfl, trivial⟩, rfl, trivial⟩
  obtain ⟨asm, hasm, -⟩ := assemble_of_known ⟨true, true, true⟩ hknown
  have hroom : 8 * (r.tree.height + 3) ≤ (entry 2 (-3)).rsp.toNat := by decide
  obtain ⟨asm', hasm', hvalue⟩ := (hints_change_no_result r t ⟨true, true, true⟩
    #v[true, true, true, true, true] #v[9, 0, 0, 0, 0] (by decide)).2 asm hasm
  obtain ⟨m₁, m₂, hrun₁, hrun₂, hsame, -⟩ := hvalue model (.entry 2 (-3)) hmodel hroom
  exact ⟨hmodel, asm, asm', m₁, m₂, hasm, hasm', hrun₁, hrun₂, hsame⟩

-- A call that is missed can change which function is reported: here the right operand counts as one
-- without a call, and the left one comes first.
example (s : Switches) :
    let r : RootedGraph :=
      ⟨⟨#[.var .x, .call "f" 0, .call "g" 0, .bin .add 1 2], by decide⟩, ⟨3, by decide⟩⟩
    let hints : CallAnalysis := .ofTables #v[false, true, false, true] #v[0, 2, 1, 2]
    (assembleWith r .empty s hints).1 = .error (.unknownFunction ⟨"f"⟩) ∧
      (assemble r .empty s).1 = .error (.unknownFunction ⟨"g"⟩) := by
  intro r hints
  constructor
  · apply assembleWith_of_firstUnknown?
    rw [Graph.plan_bin (l := ⟨1, by decide⟩) (r := ⟨2, by decide⟩) rfl]
    rw [@Graph.plan_call _ _ ⟨1, by decide⟩ "f" ⟨0, by decide⟩ rfl]
    rfl
  · exact assemble_of_firstUnknown?_tree rfl s

end Code

end Formula
