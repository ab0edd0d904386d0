import Formula.Log.Record
import Formula.X86.Instr

/-!
# The register pool

Results are computed in `xmm0` and `xmm1`. The registers `xmm2` to `xmm7` form a pool in which a
value can be parked; when the pool is switched off or used up, or the value must outlast a call, it
is pushed on the stack instead. Every operation returns the instructions that it needs.
-/

namespace Formula.Code

open X86

inductive Handle where
  | register (n : Nat)
  | spill
deriving DecidableEq, Repr

def Handle.describe : Handle → String
  | register n => s!"Register({n})"
  | spill => "Spill"

structure Stats where
  registersHit : Nat := 0
  stackSpills : Nat := 0
  /-- The highest register that a value was parked in, or zero. -/
  maxReg : Nat := 0
deriving DecidableEq, Repr

structure Pool where
  enabled : Bool
  used : Vector Bool 8
  /-- How many parked values are on the stack. -/
  pendingSpills : Nat
  stats : Stats
deriving DecidableEq, Repr

namespace Pool

inductive Fault where
  | notAllocatable (n : Nat)
  | doubleFree (n : Nat)
  | badTarget (n : Nat)
  | emptySpillStack
deriving DecidableEq, Repr

def Fault.message : Fault → String
  | notAllocatable n => s!"xmm{n} is not an allocatable register"
  | doubleFree n => s!"register double free: xmm{n}"
  | badTarget n => s!"unstash target must be xmm0 or xmm1, got xmm{n}"
  | emptySpillStack => "unstash from an empty spill stack"

def registers : List Xmm := [2, 3, 4, 5, 6, 7].map Xmm.ofNat

def new (enabled : Bool) : Pool where
  enabled := enabled
  used := Vector.replicate 8 false
  pendingSpills := 0
  stats := {}

def isUsed (p : Pool) (r : Xmm) : Bool := p.used.get r

/-- The lowest register of the pool that holds nothing. -/
def free? (p : Pool) : Option Xmm := registers.find? fun r ↦ !p.isUsed r

def countSpill (p : Pool) : Pool :=
  { p with stats := { p.stats with stackSpills := p.stats.stackSpills + 1 } }

def take (p : Pool) (r : Xmm) : Pool where
  enabled := p.enabled
  used := r.update p.used true
  pendingSpills := p.pendingSpills
  stats := { p.stats with
    registersHit := p.stats.registersHit + 1
    maxReg := max p.stats.maxReg r }

def acquire (p : Pool) : Handle × Pool :=
  match if p.enabled then p.free? else none with
  | some r => (.register r, p.take r)
  | none => (.spill, p.countSpill)

def release (p : Pool) : Handle → Except Fault Pool
  | .spill => .ok p
  | .register n =>
    if h : 2 ≤ n ∧ n < 8 then
      if p.isUsed ⟨n, h.2⟩ then .ok { p with used := p.used.set n false h.2 }
      else .error (.doubleFree n)
    else .error (.notAllocatable n)

def park : Handle → List Instr
  | .register n => [.movsd (Xmm.ofNat n) xmm0]
  | .spill => [.movqFromXmm .rax xmm0, .push .rax]

/-- Parks the value in `xmm0`: on the stack if `force` is set, else in a register if there is one.
-/
def stash (p : Pool) (force : Bool) : Handle × Pool :=
  let (h, p) := if force then (.spill, p.countSpill) else p.acquire
  match h with
  | .register _ => (h, p)
  | .spill => (h, { p with pendingSpills := p.pendingSpills + 1 })

def stashRecord (h : Handle) (force : Bool) : Log.Record where
  level := .trace
  target := "exprjit::jit::regalloc"
  message :=
    "stash xmm0 -> " ++ h.describe ++ " (forced: " ++ (if force then "true" else "false") ++ ")"

/-- Moves a parked value into `xmm0` or `xmm1` and frees its place. The instructions are those that
are out even if the operation then fails. -/
def unstash (p : Pool) (h : Handle) (dest : Nat) : List Instr × Except Fault Pool :=
  if 1 < dest then ([], .error (.badTarget dest))
  else
    match h with
    | .register n => ([.movsd (Xmm.ofNat dest) (Xmm.ofNat n)], p.release h)
    | .spill =>
      match p.pendingSpills with
      | 0 => ([], .error .emptySpillStack)
      | k + 1 =>
        ([.pop .rax, .movqToXmm (Xmm.ofNat dest) .rax], .ok { p with pendingSpills := k })

def occupied (p : Pool) : Nat := p.used.toList.count true

end Pool

end Formula.Code
