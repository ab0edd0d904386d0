import Formula.Regex.Ranges
import Std.Data.HashSet

/-!
# Regular expressions

A regular expression says which parts of a text match. `Regex.ends` takes a set of places in a text
to the set of places that a match from one of them may reach; `Regex.isMatch` asks whether there is
a match anywhere. A repetition needs no more rounds than the text has places, since a round that
stays where it is can be left out.
-/

namespace Formula

/-- Conditions on the characters around a place: letters, digits and the underscore of ASCII make up
words. -/
inductive WordLook where
  | boundary
  | notBoundary
  | start
  | stop
  | startHalf
  | stopHalf
deriving DecidableEq, Repr

inductive Look where
  | startText
  | endText
  | startLine
  | endLine
  /-- Start and end of a line that ends in a line feed, a carriage return or both. -/
  | startAnyLine
  | endAnyLine
  /-- A condition on words; of the characters of every script if `unicode`. -/
  | word (unicode : Bool) (kind : WordLook)
deriving DecidableEq, Repr

inductive Regex where
  | empty
  | look (l : Look)
  | oneOf (r : Regex.Ranges)
  | group (sub : Regex)
  | repetition (least : Nat) (most : Option Nat) (sub : Regex)
  | cat (parts : List Regex)
  | alt (branches : List Regex)
deriving Repr

namespace Look

def isWordChar (c : Char) : Bool := c.isAlphanum || c = '_'

/-- Whether a condition holds between two characters; there is none at either end of the text. -/
def holdsBetween (before after : Option Char) : Look → Bool
  | startText => before.isNone
  | endText => after.isNone
  | startLine => before.all (· = '\n')
  | endLine => after.all (· = '\n')
  | startAnyLine => before.all fun c ↦ c = '\n' || (c = '\r' && after ≠ some '\n')
  | endAnyLine => after.all fun c ↦ c = '\r' || (c = '\n' && before ≠ some '\r')
  | word _ kind =>
    let b := before.any isWordChar
    let a := after.any isWordChar
    match kind with
    | .boundary => a != b
    | .notBoundary => a == b
    | .start => !b && a
    | .stop => b && !a
    | .startHalf => !b
    | .stopHalf => !a

end Look

namespace Regex

def around (text : Array Char) (p : Nat) : Option Char × Option Char :=
  (if p = 0 then none else text[p - 1]?, text[p]?)

def joinPlaces (a b : List Nat) : List Nat :=
  if a.isEmpty then b
  else
    let known := Std.HashSet.ofList a
    a ++ b.filter fun p ↦ !known.contains p

def iterate (step : List Nat → List Nat) : Nat → List Nat → List Nat
  | 0, places => places
  | n + 1, places => if places.isEmpty then [] else iterate step n (step places)

/-- The places that are reached in up to so many steps, from those of the last step on. -/
def reachedFrom (step : List Nat → List Nat) :
    Nat → (last : List Nat) → (known : Std.HashSet Nat) → (reached : List Nat) → List Nat
  | 0, _, _, reached => reached
  | n + 1, last, known, reached =>
    let fresh := (step last).filter fun p ↦ !known.contains p
    if fresh.isEmpty then reached
    else reachedFrom step n fresh (known.insertMany fresh) (fresh ++ reached)

def reached (step : List Nat → List Nat) (rounds : Nat) (places : List Nat) : List Nat :=
  reachedFrom step rounds places (Std.HashSet.ofList places) places

mutual

def ends (text : Array Char) : Regex → List Nat → List Nat
  | .empty, places => places
  | .look l, places => places.filter fun p ↦
    let (before, after) := around text p
    l.holdsBetween before after
  | .oneOf r, places => places.filterMap fun p ↦
    if text[p]?.any fun c ↦ r.covers c.toNat then some (p + 1) else none
  | .group sub, places => ends text sub places
  | .repetition least most sub, places =>
    let rounds := text.size + 1
    let more := most.elim rounds (· - least)
    reached (ends text sub) (min more rounds)
      (iterate (ends text sub) (min least rounds) places)
  | .cat parts, places => catEnds text parts places
  | .alt branches, places => altEnds text branches places

def catEnds (text : Array Char) : List Regex → List Nat → List Nat
  | [], places => places
  | r :: rest, places => catEnds text rest (ends text r places)

def altEnds (text : Array Char) : List Regex → List Nat → List Nat
  | [], _ => []
  | r :: rest, places => joinPlaces (ends text r places) (altEnds text rest places)

end

def isMatch (r : Regex) (text : String) : Bool :=
  let chars := text.toList.toArray
  !(r.ends chars (List.range (chars.size + 1))).isEmpty

end Regex

end Formula
