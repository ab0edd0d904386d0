import Formula.Proofs.Code.Simulation

/-!
# The order of native calls

A native function may give another result each time it is called, as long as the calls made so far
and the argument decide it: an `Oracle` is such a decision for all functions. `Tree.perform`
evaluates a formula with an oracle, the right operand of each operation first. A plan evaluates the
left operand first only where there is no call in the right one, so it makes the calls of `perform`
and gives its value (`Plan.Performs.perform_tree`). What a routine calls, and what it gives, is
therefore the same under all switches.
-/

namespace Formula

open X86 Machine

namespace X86.Machine

/-- What functions give, from the calls so far, the latest first, an address and the word of an
argument. -/
abbrev Oracle := List NativeCall → (address argument : UInt64) → UInt64

/-- The functions of a table give what the oracle says. -/
def CallModel.Obeys (model : CallModel) (t : FunctionTable) (oracle : Oracle) : Prop :=
  ∀ name f, t.get? name = some f → ∀ m, ∃ m', model f.address m = some m' ∧
    m.Returns (oracle m.calls f.address (m.getXmm xmm0)) m'

def Oracle.behaviour (oracle : Oracle) (t : FunctionTable) : Behaviour := fun made name a w ↦
  ∃ f, t.get? name = some f ∧ oracle made f.address a = w

theorem CallModel.Obeys.follows {model : CallModel} {t : FunctionTable} {oracle : Oracle}
    (h : model.Obeys t oracle) : model.Follows t (oracle.behaviour t) := by
  intro name f hf m
  obtain ⟨m', hcall, hret⟩ := h name f hf m
  exact ⟨m', _, hcall, ⟨f, hf, rfl⟩, hret⟩

/-- A routine for the formula is entered with two words as inputs after some calls, and the stack
has room for it. -/
structure Enters (m : Machine) (e : Tree) (x y : UInt64) (made : List NativeCall) : Prop where
  x : m.getXmm xmm0 = x
  y : m.getXmm xmm1 = y
  calls : m.calls = made
  room : 8 * (e.height + 3) ≤ m.rsp.toNat

end X86.Machine

variable {t : FunctionTable} {oracle : Oracle} {x y : UInt64}

namespace Tree

/-- The functions that are called, in the order of the calls: those of the right operand before
those of the left one, those of an argument before the one it is given to. -/
def callOrder : Tree → List String
  | const _ | var _ => []
  | bin _ l r => r.callOrder ++ l.callOrder
  | call name a => a.callOrder ++ [name]

/-- Evaluates a formula after some calls, the right operand of each operation first. The result is
its value and all calls made by then, the latest first. -/
def perform (t : FunctionTable) (oracle : Oracle) (x y : UInt64) :
    Tree → List NativeCall → Option (UInt64 × List NativeCall)
  | const v, made => some (v.bits, made)
  | var .x, made => some (x, made)
  | var .y, made => some (y, made)
  | bin op l r, made => do
    let (b, made) ← r.perform t oracle x y made
    let (a, made) ← l.perform t oracle x y made
    return (arith op a b, made)
  | call name a, made => do
    let f ← t.get? name
    let (w, made) ← a.perform t oracle x y made
    return (oracle made f.address w, ⟨f.address, w⟩ :: made)

theorem perform_bin {op : BinOp} {l r : Tree} {made made₁ made₂ : List NativeCall} {a b : UInt64}
    (hr : r.perform t oracle x y made = some (b, made₁))
    (hl : l.perform t oracle x y made₁ = some (a, made₂)) :
    (bin op l r).perform t oracle x y made = some (arith op a b, made₂) := by
  simp [perform, hr, hl]

theorem perform_call {name : String} {f : Native} {a : Tree} {made made₁ : List NativeCall}
    {w : UInt64} (hf : t.get? name = some f)
    (ha : a.perform t oracle x y made = some (w, made₁)) :
    (call name a).perform t oracle x y made =
      some (oracle made₁ f.address w, ⟨f.address, w⟩ :: made₁) := by
  simp [perform, hf, ha]

/-- Without a call, what was called before makes no difference and stays as it is. -/
theorem perform_of_hasCall_eq_false {e : Tree} (h : e.hasCall = false) :
    ∃ w, ∀ made, e.perform t oracle x y made = some (w, made) := by
  induction e with
  | const v => exact ⟨v.bits, fun _ ↦ rfl⟩
  | var v =>
      cases v with
      | x => exact ⟨x, fun _ ↦ rfl⟩
      | y => exact ⟨y, fun _ ↦ rfl⟩
  | bin op l r ihl ihr =>
      rw [hasCall, Bool.or_eq_false_iff] at h
      obtain ⟨a, ha⟩ := ihl h.1
      obtain ⟨b, hb⟩ := ihr h.2
      exact ⟨arith op a b, fun made ↦ perform_bin (hb made) (ha made)⟩
  | call name a _ => cases h

theorem exists_made_of_perform {e : Tree} {made made' : List NativeCall} {w : UInt64}
    (h : e.perform t oracle x y made = some (w, made')) :
    ∃ new, made' = new ++ made ∧
      new.reverse.map (fun c ↦ some c.address) = e.callOrder.map t.address? := by
  induction e generalizing made made' w with
  | const v =>
      cases h
      exact ⟨[], rfl, rfl⟩
  | var v =>
      cases v <;> cases h <;> exact ⟨[], rfl, rfl⟩
  | bin op l r ihl ihr =>
      simp only [perform, Option.bind_eq_bind, Option.bind_eq_some_iff, Prod.exists] at h
      obtain ⟨b, made₁, hr, a, made₂, hl, hresult⟩ := h
      cases hresult
      obtain ⟨newr, rfl, hnewr⟩ := ihr hr
      obtain ⟨newl, rfl, hnewl⟩ := ihl hl
      refine ⟨newl ++ newr, (List.append_assoc ..).symm, ?_⟩
      rw [List.reverse_append, List.map_append, hnewl, hnewr, callOrder, List.map_append]
  | call name a ih =>
      simp only [perform, Option.bind_eq_bind, Option.bind_eq_some_iff, Prod.exists] at h
      obtain ⟨f, hf, v, made₁, ha, hresult⟩ := h
      cases hresult
      obtain ⟨new, rfl, hnew⟩ := ih ha
      refine ⟨⟨f.address, v⟩ :: new, rfl, ?_⟩
      simp [hnew, callOrder, FunctionTable.address?_of_get? hf]

end Tree

namespace Code

namespace Plan

/-- The left operand comes first only where there is no call in the right one. -/
def RightCallsFirst : Plan → Prop
  | const _ | var _ => True
  | bin _ leftFirst _ p q =>
    (leftFirst = true → q.tree.hasCall = false) ∧ p.RightCallsFirst ∧ q.RightCallsFirst
  | call _ p => p.RightCallsFirst

theorem Performs.perform_tree {P : Plan} {made made' : List NativeCall} {w : UInt64}
    (h : P.Performs t (oracle.behaviour t) x y made w made') (horder : P.RightCallsFirst) :
    P.tree.perform t oracle x y made = some (w, made') := by
  induction h with
  | const v made => rfl
  | x made => rfl
  | y made => rfl
  | @bin P Q made₀ made₁ made₂ a b op leftFirst force hP hQ ihP ihQ =>
      obtain ⟨hfree, hPorder, hQorder⟩ := horder
      have hfirst := ihP hPorder
      have hsecond := ihQ hQorder
      cases leftFirst with
      | false => exact Tree.perform_bin hfirst hsecond
      | true =>
          -- The right operand makes no call, so it could as well have come first.
          obtain ⟨v, hv⟩ : ∃ v, ∀ made, Q.tree.perform t oracle x y made = some (v, made) :=
            Tree.perform_of_hasCall_eq_false (hfree rfl)
          rw [hv made₁] at hsecond
          cases hsecond
          exact Tree.perform_bin (hv made₀) hfirst
  | @call P made₀ made₁ name f a w hf hP hw ih =>
      obtain ⟨f', hf', rfl⟩ := hw
      obtain rfl : f = f' := Option.some.inj (hf.symm.trans hf')
      exact Tree.perform_call hf (ih horder)

end Plan

/-- Where the analysis misses no call, the calls of the right operand come first. -/
theorem rightCallsFirst_plan (g : Graph) {a : CallAnalysis}
    (ha : ∀ i : Fin g.size, (g.unfold i).hasCall = true → a.hasCall i = true) (i : Fin g.size) :
    (g.plan a i).RightCallsFirst := by
  induction i using Graph.node_induction with
  | const i v h =>
      rw [Graph.plan_const h]
      trivial
  | var i v h =>
      rw [Graph.plan_var h]
      trivial
  | bin i op l r h ihl ihr =>
      rw [Graph.plan_bin h]
      split
      · next hleft =>
          refine ⟨fun _ ↦ ?_, ihl, ihr⟩
          rw [Emitter.leftFirst, Bool.and_eq_true, Bool.not_eq_true'] at hleft
          rw [g.tree_plan, Bool.eq_false_iff]
          intro hcall
          exact absurd (ha r hcall) (by simp [hleft.2])
      · exact ⟨fun h ↦ absurd h Bool.false_ne_true, ihr, ihl⟩
  | call i name arg h ih =>
      rw [Graph.plan_call h]
      exact ih

theorem rightCallsFirst_planOf (r : RootedGraph) (s : Switches) :
    (planOf r s).RightCallsFirst :=
  rightCallsFirst_plan r.graph
    (fun i h ↦ (CallAnalysis.hasCall_run r.graph s.useCallDepth i).trans h) r.root

variable {model : CallModel} {m : Machine}

/-- A routine makes the calls of its formula and gives the value. -/
theorem exists_run_of_enters {r : RootedGraph} {s : Switches} {asm : Assembly}
    (hasm : (assemble r t s).1 = .ok asm) (hmodel : model.Obeys t oracle) {made : List NativeCall}
    (hm : m.Enters r.tree x y made) :
    ∃ m', run model asm.code.toList m = .ok m' ∧
      r.tree.perform t oracle x y made = some (m'.getXmm xmm0, m'.calls) := by
  obtain ⟨rfl, rfl, rfl, hroom⟩ := hm
  have htree := tree_planOf r s
  have hknown : (planOf r s).tree.Known t := htree ▸ known_of_assemble hasm
  obtain ⟨m', hsteps, -, hout⟩ :=
    exists_steps_routineBody hmodel.follows (safe_planOf r s) hknown s (htree ▸ hroom)
  refine ⟨m', ?_, ?_⟩
  · have hcode := toList_code_of_assemble hasm
    rw [routineCode_eq, ← List.append_nil (encodeAll _)] at hcode
    rw [hcode, run_encodeAll (ret_not_mem_routineBody t s _), hsteps]
  · rw [← htree]
    exact hout.perform_tree (rightCallsFirst_planOf r s)

/-- Whatever the calls so far make a function give, two routines for one formula make the same calls
with the same arguments and give the same value: those of evaluating the formula with the right
operand of each operation first. If a formula can be assembled under some switches, it can be
assembled under all. -/
theorem switches_keep_calls {r : RootedGraph} {s₁ : Switches} {asm₁ : Assembly}
    (hasm₁ : (assemble r t s₁).1 = .ok asm₁) (s₂ : Switches) {model₁ model₂ : CallModel}
    (hmodel₁ : model₁.Obeys t oracle) (hmodel₂ : model₂.Obeys t oracle) {m₁ m₂ : Machine}
    {made : List NativeCall} (hm₁ : m₁.Enters r.tree x y made) (hm₂ : m₂.Enters r.tree x y made) :
    ∃ asm₂ m₁' m₂' new, (assemble r t s₂).1 = .ok asm₂ ∧
      run model₁ asm₁.code.toList m₁ = .ok m₁' ∧ run model₂ asm₂.code.toList m₂ = .ok m₂' ∧
      m₁'.getXmm xmm0 = m₂'.getXmm xmm0 ∧
      m₁'.calls = new ++ made ∧ m₂'.calls = new ++ made ∧
      r.tree.perform t oracle x y made = some (m₁'.getXmm xmm0, new ++ made) ∧
      new.reverse.map (fun c ↦ some c.address) = r.tree.callOrder.map t.address? := by
  obtain ⟨asm₂, hasm₂, -⟩ := assemble_of_known s₂ (known_of_assemble hasm₁)
  obtain ⟨m₁', hrun₁, hperform₁⟩ := exists_run_of_enters hasm₁ hmodel₁ hm₁
  obtain ⟨m₂', hrun₂, hperform₂⟩ := exists_run_of_enters hasm₂ hmodel₂ hm₂
  have hsame := Option.some.inj (hperform₁.symm.trans hperform₂)
  rw [Prod.mk.injEq] at hsame
  obtain ⟨new, hnew, horder⟩ := Tree.exists_made_of_perform hperform₁
  refine ⟨asm₂, m₁', m₂', new, hasm₂, hrun₁, hrun₂, hsame.1, hnew, hsame.2 ▸ hnew, ?_, horder⟩
  rw [← hnew]
  exact hperform₁

/-- A function that counts its calls, in a formula of which one part may come before its right
operand and the other may not. -/
theorem switches_keep_calls_of_counting_call :
    let e : Expr :=
      .bin .sub (.bin .add (.call "next" (.var .x)) (.var .y)) (.call "next" (.var .y))
    let t : FunctionTable := ⟨[("next", ⟨1, .abs⟩)]⟩
    let oracle : Oracle := fun made _ w ↦ w + UInt64.ofNat made.length
    let model : CallModel := fun address m ↦ some ⟨0, m.rsp, m.rbp,
      #v[oracle m.calls address (m.getXmm xmm0), 0, 0, 0, 0, 0, 0, 0], m.memory, []⟩
    model.Obeys t oracle ∧ ∃ asm₁ asm₂ m₁ m₂,
      (assemble e.toGraph t ⟨true, true, true⟩).1 = .ok asm₁ ∧
      (assemble e.toGraph t ⟨false, false, true⟩).1 = .ok asm₂ ∧
      run model asm₁.code.toList (.entry 2 (-3)) = .ok m₁ ∧
      run model asm₂.code.toList (.entry 2 (-3)) = .ok m₂ ∧
      m₁.getXmm xmm0 = m₂.getXmm xmm0 ∧ m₁.calls = m₂.calls ∧
      m₁.calls = [⟨1, (2 : Double).bits⟩, ⟨1, (-3 : Double).bits⟩] := by
  intro e t oracle model
  have hmodel : model.Obeys t oracle := by
    intro name f hf m
    have hlookup : f = ⟨1, .abs⟩ := by
      simp only [t, FunctionTable.get?, FunctionTable.lookup] at hf
      split at hf <;> simp_all
    subst hlookup
    exact ⟨_, rfl, rfl, rfl, rfl, fun _ _ ↦ rfl⟩
  have hknown : e.toGraph.tree.Known t := by
    rw [e.tree_toGraph]
    simp [e, t, Expr.tree, Tree.Known, FunctionTable.contains, FunctionTable.get?,
      FunctionTable.lookup]
  obtain ⟨asm₁, hasm₁, -⟩ := assemble_of_known ⟨true, true, true⟩ hknown
  have hm : (entry 2 (-3)).Enters e.toGraph.tree (2 : Double).bits (-3 : Double).bits [] := by
    refine ⟨rfl, rfl, rfl, ?_⟩
    rw [e.tree_toGraph]
    decide
  obtain ⟨asm₂, m₁, m₂, new, hasm₂, hrun₁, hrun₂, hvalue, hcalls₁, hcalls₂, hperform, -⟩ :=
    switches_keep_calls hasm₁ ⟨false, false, true⟩ hmodel hmodel hm hm
  refine ⟨hmodel, asm₁, asm₂, m₁, m₂, hasm₁, hasm₂, hrun₁, hrun₂, hvalue,
    hcalls₁.trans hcalls₂.symm, ?_⟩
  rw [e.tree_toGraph] at hperform
  have hmade : new ++ [] = [⟨1, (2 : Double).bits⟩, ⟨1, (-3 : Double).bits⟩] :=
    (congrArg Prod.snd (Option.some.inj hperform)).symm
  rw [hcalls₁, hmade]

end Code

end Formula
