import Formula.Proofs.X86.Execution

/-!
# Places that are still needed

A place is a double register or a byte of memory. A point needs a place when the execution from
there reads it before it writes it. A call reads its argument and writes its result; the other
registers that it may change do not count as written, so a point before a call needs what is read
behind it.
-/

namespace Formula.X86

inductive Place where
  | xmm (r : Xmm)
  | byte (a : UInt64)

/-- A function that is called with this stack pointer keeps the place, or leaves its result there.
-/
def Place.Survives (rsp : UInt64) : Place → Prop
  | xmm r => r = xmm0
  | byte a => rsp ≤ a

theorem Place.Survives.mono {rsp rsp' : UInt64} {pl : Place} (h : pl.Survives rsp)
    (hle : rsp' ≤ rsp) : pl.Survives rsp' := by
  cases pl with
  | xmm r => exact h
  | byte a => exact UInt64.le_trans hle h

namespace Machine

def Reads (m : Machine) : Instr → Place → Prop
  | .pop _, .byte a => InWord m.rsp a
  | .movqFromXmm _ src, .xmm r => r = src
  | .movsd _ src, .xmm r => r = src
  | .movsdLoad _ base disp, .byte a => InWord (m.effective base disp) a
  | .movsdStore _ _ src, .xmm r => r = src
  | .arith _ dst src, .xmm r => r = dst ∨ r = src
  | .call _, .xmm r => r = xmm0
  | .ret, .xmm r => r = xmm0
  | .ret, .byte a => InWord m.rsp a
  | _, _ => False

def Writes (m : Machine) : Instr → Place → Prop
  | .push _, .byte a => InWord (m.rsp - 8) a
  | .movqToXmm dst _, .xmm r => r = dst
  | .movsd dst _, .xmm r => r = dst
  | .movsdLoad dst _ _, .xmm r => r = dst
  | .movsdStore base disp _, .byte a => InWord (m.effective base disp) a
  | .arith _ dst _, .xmm r => r = dst
  | .call _, .xmm r => r = xmm0
  | _, _ => False

/-- An instruction changes only the memory that it writes. -/
theorem read_exec_of_not_writes {m : Machine} {i : Instr} {a : UInt64}
    (h : ¬ m.Writes i (.byte a)) : (m.exec i).memory.read a = m.memory.read a := by
  have hset : ∀ (m : Machine) r w, (m.set r w).memory = m.memory := by
    intro m r w
    cases r <;> rfl
  cases i with
  | push r =>
      simp only [exec, store, hset]
      exact Memory.read_writeWord_of_not_inWord _ _ h
  | movsdStore base disp src => exact Memory.read_writeWord_of_not_inWord _ _ h
  | _ => simp [exec, hset, setXmm]

/-- The instructions read the place before they write it. -/
def Needs (model : CallModel) : List Instr → Machine → Place → Prop
  | [], _, _ => False
  | i :: is, m, pl =>
    m.Reads i pl ∨ ¬ m.Writes i pl ∧ ∃ m', m.step model i = .ok m' ∧ Needs model is m' pl

def Spares (model : CallModel) : List Instr → Machine → Place → Prop
  | [], _, _ => True
  | i :: is, m, pl =>
    ¬ m.Writes i pl ∧ ∀ m', m.step model i = .ok m' → Spares model is m' pl

variable {model : CallModel} {is js : List Instr} {m : Machine} {pl : Place}

theorem needs_append (h : Needs model (is ++ js) m pl) :
    Needs model is m pl ∨
      Spares model is m pl ∧ ∃ m', steps model is m = .ok m' ∧ Needs model js m' pl := by
  induction is generalizing m with
  | nil => exact .inr ⟨trivial, m, rfl, h⟩
  | cons i is ih =>
      rcases h with hread | ⟨hwrite, m₁, hstep, hneeds⟩
      · exact .inl (.inl hread)
      · rcases ih hneeds with hneeds | ⟨hspares, m', hsteps, hneeds⟩
        · exact .inl (.inr ⟨hwrite, m₁, hstep, hneeds⟩)
        · refine .inr ⟨⟨hwrite, ?_⟩, m', ?_, hneeds⟩
          · intro m₂ hstep₂
            obtain rfl : m₁ = m₂ := Except.ok.inj (hstep.symm.trans hstep₂)
            exact hspares
          · rw [steps_cons, hstep]
            exact hsteps

theorem Spares.left (h : Spares model (is ++ js) m pl) : Spares model is m pl := by
  induction is generalizing m with
  | nil => trivial
  | cons i is ih => exact ⟨h.1, fun m' hstep ↦ ih (h.2 m' hstep)⟩

/-- If a call comes next, what is needed behind it survives the call. -/
def CallsSafely (model : CallModel) (m : Machine) (i : Instr) (ahead : List Instr) : Prop :=
  ∀ r, i = .call r → ∀ pl, Needs model (i :: ahead) m pl → pl.Survives m.rsp

theorem callsSafely_of_ne_call {i : Instr} {ahead : List Instr} (h : ∀ r, i ≠ .call r) :
    CallsSafely model m i ahead :=
  fun r hr ↦ absurd hr (h r)

/-- A property of each machine along the instructions, with the instruction that is next and those
behind it. -/
def Along (model : CallModel) (Q : Machine → Instr → List Instr → Prop) :
    List Instr → Machine → Prop
  | [], _ => True
  | i :: is, m => Q m i is ∧ ∀ m', m.step model i = .ok m' → Along model Q is m'

variable {Q : Machine → Instr → List Instr → Prop}

theorem Along.append (h : Along model (fun m i ahead ↦ Q m i (ahead ++ js)) is m)
    (h' : ∀ m', steps model is m = .ok m' → Along model Q js m') : Along model Q (is ++ js) m := by
  induction is generalizing m with
  | nil => exact h' m rfl
  | cons i is ih =>
      refine ⟨h.1, fun m₁ hstep ↦ ih (h.2 m₁ hstep) fun m' hsteps ↦ h' m' ?_⟩
      rw [steps_cons, hstep]
      exact hsteps

theorem Along.imp {Q' : Machine → Instr → List Instr → Prop} (h : Along model Q is m)
    (himp : ∀ m i ahead, Q m i ahead → Q' m i ahead) : Along model Q' is m := by
  induction is generalizing m with
  | nil => trivial
  | cons i is ih => exact ⟨himp m i is h.1, fun m' hstep ↦ ih (h.2 m' hstep)⟩

theorem along_of_forall (h : ∀ m, ∀ i ∈ is, ∀ ahead, Q m i ahead) (m : Machine) :
    Along model Q is m := by
  induction is generalizing m with
  | nil => trivial
  | cons i is ih =>
      refine ⟨h m i List.mem_cons_self is, fun m' _ ↦ ih ?_ m'⟩
      exact fun m j hj ↦ h m j (List.mem_cons_of_mem i hj)

theorem along_of_no_call (h : ∀ r, Instr.call r ∉ is) (rest : List Instr → List Instr)
    (m : Machine) : Along model (fun m i ahead ↦ CallsSafely model m i (rest ahead)) is m := by
  apply along_of_forall
  intro m i hi ahead
  apply callsSafely_of_ne_call
  rintro r rfl
  exact h r hi

theorem Along.apply {i : Instr} {m' : Machine} (h : Along model Q (is ++ i :: js) m)
    (hsteps : steps model is m = .ok m') : Q m' i js := by
  induction is generalizing m with
  | nil =>
      cases hsteps
      exact h.1
  | cons j is ih =>
      rw [steps_cons] at hsteps
      cases hstep : m.step model j with
      | error f =>
          rw [hstep] at hsteps
          cases hsteps
      | ok m₁ =>
          rw [hstep] at hsteps
          exact ih (h.2 m₁ hstep) hsteps

end Machine

namespace Point

/-- The execution from the point reads the place before it writes it. -/
inductive Needs (model : Machine.CallModel) : Point → Place → Prop
  | read {p : Point} {i : Instr} {pl : Place} (hnext : p.next? = some i)
      (hread : p.machine.Reads i pl) : Needs model p pl
  | later {p q : Point} {i : Instr} {pl : Place} (hnext : p.next? = some i)
      (hwrite : ¬ p.machine.Writes i pl) (hstep : Step model p q) (hneeds : Needs model q pl) :
      Needs model p pl

variable {model : Machine.CallModel}

theorem eq_cons_of_next? {is : List Instr} {m : Machine} {i : Instr}
    (h : next? ⟨encodeAll is, m⟩ = some i) : ∃ js, is = i :: js := by
  cases is with
  | nil => simp [next?, decode] at h
  | cons j js =>
      rw [next?_encodeAll_cons] at h
      cases h
      exact ⟨js, rfl⟩

theorem Needs.encodeAll {is : List Instr} {m : Machine} {pl : Place}
    (h : Needs model ⟨encodeAll is, m⟩ pl) : Machine.Needs model is m pl := by
  generalize hp : (⟨X86.encodeAll is, m⟩ : Point) = p at h
  induction h generalizing is m with
  | read hnext hread =>
      subst hp
      obtain ⟨js, rfl⟩ := eq_cons_of_next? hnext
      exact .inl hread
  | @later p q i pl hnext hwrite hstep _ ih =>
      subst hp
      obtain ⟨js, rfl⟩ := eq_cons_of_next? hnext
      obtain ⟨-, hcode, hm⟩ := step_encodeAll_iff.1 hstep
      obtain ⟨code, m'⟩ := q
      simp only at hcode hm
      exact .inr ⟨hwrite, m', hm, ih (by rw [hcode])⟩

/-- What holds along instructions holds at each point that their bytes lead to. -/
theorem of_along {Q : Machine → Instr → List Instr → Prop} {is : List Instr} {m : Machine}
    (h : m.Along model Q is) {p : Point} (hp : Reaches model ⟨encodeAll is, m⟩ p) {i : Instr}
    (hnext : p.next? = some i) : ∃ js, p.code = X86.encodeAll (i :: js) ∧ Q p.machine i js := by
  obtain ⟨before, ahead, rfl, -, hcode, hsteps⟩ := reaches_encodeAll_iff.1 hp
  obtain ⟨code, m'⟩ := p
  simp only at hcode hsteps
  subst hcode
  obtain ⟨js, rfl⟩ := eq_cons_of_next? hnext
  exact ⟨js, rfl, h.apply hsteps⟩

end Point

end Formula.X86
