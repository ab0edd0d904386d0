import Formula.Proofs.X86.Memory

/-!
# Executions, point by point

`Machine.steps` executes instructions in order, without their bytes. A `Point` is a machine
together with the bytes that are still ahead of it, and `Point.Step` executes the instruction that
these bytes start with. From the bytes of instructions, an execution passes through the machines
that `steps` gives for the first few of them (`Point.reaches_encodeAll_iff`), and `Machine.run`
comes to a return with the machine that they leave (`Machine.run_encodeAll`).
-/

namespace Formula.X86

namespace Machine

/-- What one instruction does. A return changes nothing here. -/
def step (model : CallModel) (m : Machine) : Instr → Except Fault Machine
  | .call r => m.callAt model (m.get r)
  | i => .ok (m.exec i)

def steps (model : CallModel) : List Instr → Machine → Except Fault Machine
  | [], m => .ok m
  | i :: is, m => (m.step model i).bind (steps model is)

variable {model : CallModel} {m m' : Machine} {is js : List Instr}

@[simp] theorem steps_nil : steps model [] m = .ok m := rfl

theorem steps_cons (i : Instr) : steps model (i :: is) m = (m.step model i).bind (steps model is) :=
  rfl

theorem steps_append :
    steps model (is ++ js) m = (steps model is m).bind (steps model js) := by
  induction is generalizing m with
  | nil => rfl
  | cons i is ih =>
      rw [List.cons_append, steps_cons, steps_cons]
      cases m.step model i with
      | error f => rfl
      | ok m₁ => exact ih

theorem steps_append_of_ok (h : steps model is m = .ok m') :
    steps model (is ++ js) m = steps model js m' := by
  rw [steps_append, h]
  rfl

theorem runSteps_encodeAll (his : Instr.ret ∉ is) {count : Nat} (hcount : is.length < count)
    (rest : List UInt8) :
    runSteps model count (encodeAll (is ++ [.ret]) ++ rest) m = steps model is m := by
  induction is generalizing count m with
  | nil =>
      obtain ⟨count, rfl⟩ : ∃ k, count = k + 1 := ⟨count - 1, by simp at hcount; omega⟩
      rfl
  | cons i is ih =>
      obtain ⟨count, rfl⟩ : ∃ k, count = k + 1 := ⟨count - 1, by simp at hcount; omega⟩
      have hrest : Instr.ret ∉ is := fun h ↦ his (List.mem_cons_of_mem i h)
      have hret : i ≠ .ret := fun h ↦ his (h ▸ List.mem_cons_self)
      have hdecode := decode_encode i (encodeAll (is ++ [.ret]) ++ rest)
      have hnext : ∀ m, runSteps model count (encodeAll (is ++ [.ret]) ++ rest) m =
          steps model is m := fun m ↦ ih hrest (by simpa using hcount)
      rw [List.cons_append, encodeAll_cons, List.append_assoc, runSteps, hdecode]
      cases i with
      | ret => exact absurd rfl hret
      | call r =>
          simp only [steps_cons, step]
          cases m.callAt model (m.get r) with
          | error f => rfl
          | ok m₁ => exact hnext m₁
      | _ => exact hnext _

theorem length_encode_pos (i : Instr) : 0 < i.encode.length := by
  cases i <;> simp [Instr.encode, groupImm]

theorem length_le_length_encodeAll (is : List Instr) : is.length ≤ (encodeAll is).length := by
  induction is with
  | nil => rfl
  | cons i is ih =>
      have hpos := length_encode_pos i
      simp only [encodeAll_cons, List.length_cons, List.length_append]
      omega

/-- Bytes that start with instructions up to a return are executed as these instructions. -/
theorem run_encodeAll (his : Instr.ret ∉ is) (rest : List UInt8) :
    run model (encodeAll (is ++ [.ret]) ++ rest) m = steps model is m := by
  apply runSteps_encodeAll his
  have hlen := length_le_length_encodeAll (is ++ [.ret])
  simp only [List.length_append, List.length_singleton] at hlen ⊢
  omega

end Machine

/-- A machine and the code that is ahead of it. -/
structure Point where
  code : List UInt8
  machine : Machine

namespace Point

def next? (p : Point) : Option Instr := (decode p.code).map Prod.fst

/-- Executes the next instruction; a return is the end. -/
inductive Step (model : Machine.CallModel) : Point → Point → Prop
  | intro {code rest : List UInt8} {m m' : Machine} {i : Instr}
      (hdecode : decode code = some (i, rest)) (hret : i ≠ .ret)
      (hstep : m.step model i = .ok m') : Step model ⟨code, m⟩ ⟨rest, m'⟩

/-- An execution from the first point passes through the second one. -/
def Reaches (model : Machine.CallModel) : Point → Point → Prop :=
  Relation.ReflTransGen (Step model)

variable {model : Machine.CallModel}

theorem next?_encodeAll_cons (i : Instr) (is : List Instr) (m : Machine) :
    next? ⟨encodeAll (i :: is), m⟩ = some i := by
  simp [next?, decode_encode]

theorem step_encodeAll_iff {i : Instr} {is : List Instr} {m : Machine} {p : Point} :
    Step model ⟨encodeAll (i :: is), m⟩ p ↔
      i ≠ .ret ∧ p.code = encodeAll is ∧ m.step model i = .ok p.machine := by
  have hdecode := decode_encode i (encodeAll is)
  constructor
  · rintro ⟨hread, hret, hstep⟩
    rw [encodeAll_cons, hdecode] at hread
    cases hread
    exact ⟨hret, rfl, hstep⟩
  · obtain ⟨code, m'⟩ := p
    rintro ⟨hret, rfl, hstep⟩
    exact .intro hdecode hret hstep

theorem reaches_encodeAll_iff {is : List Instr} {m : Machine} {p : Point} :
    Reaches model ⟨encodeAll is, m⟩ p ↔
      ∃ before ahead, is = before ++ ahead ∧ Instr.ret ∉ before ∧ p.code = encodeAll ahead ∧
        Machine.steps model before m = .ok p.machine := by
  constructor
  · intro h
    induction h with
    | refl => exact ⟨[], is, rfl, by simp, rfl, rfl⟩
    | @tail q p _ hstep ih =>
        obtain ⟨before, ahead, rfl, hret, hcode, hsteps⟩ := ih
        obtain ⟨code, m₁⟩ := q
        simp only at hcode hsteps
        subst hcode
        cases ahead with
        | nil => exact absurd hstep (by rintro ⟨hread, -⟩; simp [decode] at hread)
        | cons i ahead =>
            obtain ⟨hi, hcode', hm⟩ := step_encodeAll_iff.1 hstep
            refine ⟨before ++ [i], ahead, by simp, ?_, hcode', ?_⟩
            · simpa using ⟨hret, hi.symm⟩
            · rw [Machine.steps_append_of_ok hsteps, Machine.steps_cons, hm]
              rfl
  · rintro ⟨before, ahead, rfl, hret, hcode, hsteps⟩
    obtain ⟨code, m'⟩ := p
    simp only at hcode hsteps
    subst hcode
    induction before generalizing m with
    | nil =>
        cases hsteps
        exact .refl
    | cons i before ih =>
        rw [Machine.steps_cons] at hsteps
        cases hm : m.step model i with
        | error f =>
            rw [hm] at hsteps
            cases hsteps
        | ok m₁ =>
            rw [hm] at hsteps
            have hi : i ≠ .ret := fun h ↦ hret (h ▸ List.mem_cons_self)
            have hfirst : Step model ⟨encodeAll (i :: (before ++ ahead)), m⟩
                ⟨encodeAll (before ++ ahead), m₁⟩ := step_encodeAll_iff.2 ⟨hi, rfl, hm⟩
            exact .head hfirst (ih (fun h ↦ hret (List.mem_cons_of_mem i h)) hsteps)

end Point

end Formula.X86
