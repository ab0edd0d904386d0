import Formula.Regex.Basic

/-!
# How large a compiled pattern is

A pattern that is compiled to an automaton takes memory for each state, and repetitions copy what
they repeat. `Regex.bytes` follows that measure; patterns beyond `Regex.sizeLimit` are refused. The
automaton is built once for reading forwards, with marks for groups, and once for reading backwards.
-/

namespace Formula.Regex

inductive Direction where
  | forwards
  | backwards
deriving DecidableEq, Repr

/-- The memory of a state, of a transition in it, and of an alternative in it. -/
def stateBytes : Nat := 32

def transitionBytes : Nat := 8

def alternativeBytes : Nat := 4

/-- The memory for one character of a set. A set with characters beyond ASCII takes as much as that
of all characters does. -/
def Ranges.bytes (d : Direction) (r : Ranges) : Nat :=
  match r with
  | [] => stateBytes
  | [(lo, hi)] =>
    if lo = hi then stateBytes * (Char.ofNat lo).utf8Size
    else if hi < 0x80 then 2 * stateBytes + transitionBytes
    else wide d
  | r =>
    if r.all fun (_, hi) ↦ hi < 0x80 then 2 * stateBytes + transitionBytes * r.length else wide d
where
  wide : Direction → Nat
    | .forwards => 9 * stateBytes + 17 * transitionBytes
    | .backwards => 30 * stateBytes + 10 * alternativeBytes

mutual

def consumes : Regex → Bool
  | .empty => false
  | .look _ => false
  | .oneOf r => !r.isEmpty
  | .group sub => consumes sub
  | .repetition least _ sub => 0 < least && consumes sub
  | .cat parts => someConsumes parts
  | .alt branches => allConsume branches

def someConsumes : List Regex → Bool
  | [] => false
  | r :: rest => consumes r || someConsumes rest

def allConsume : List Regex → Bool
  | [] => true
  | r :: rest => consumes r && allConsume rest

end

def choiceBytes (n : Nat) : Nat := stateBytes + alternativeBytes * n

mutual

def bytes (d : Direction) : Regex → Nat
  | .empty => stateBytes
  | .look _ => stateBytes
  | .oneOf r => r.bytes d
  | .group sub => (if d = .forwards then 2 * stateBytes else 0) + bytes d sub
  | .repetition least most sub =>
    let one := bytes d sub
    match least, most with
    | 0, none =>
      if sub.consumes then choiceBytes 2 + one else 2 * choiceBytes 2 + stateBytes + one
    | n, none => n * one + choiceBytes 2
    | n, some m =>
      if n = m then n * one
      else (if n = 0 then stateBytes else n * one) + stateBytes + (m - n) * (choiceBytes 2 + one)
  | .cat parts => catBytes d parts
  | .alt branches => choiceBytes branches.length + stateBytes + altBytes d branches

/-- Parts without content take no memory in a sequence. -/
def catBytes (d : Direction) : List Regex → Nat
  | [] => 0
  | .empty :: rest => catBytes d rest
  | r :: rest => bytes d r + catBytes d rest

def altBytes (d : Direction) : List Regex → Nat
  | [] => 0
  | r :: rest => bytes d r + altBytes d rest

end

def sizeLimit : Nat := 10485760

def isTooLarge (r : Regex) (d : Direction) : Bool := sizeLimit < r.bytes d

end Formula.Regex
