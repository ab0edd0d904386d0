import Formula.Regex.Ast
import Formula.Regex.Fault
import Formula.Regex.Ranges

/-!
# What classes hold

A class holds characters of every script, or only bytes that are ASCII characters when the pattern
is not about Unicode. No tables of character properties are at hand: letters of other scripts have
no case here, the classes that have a letter are known for ASCII only, and no property is known.
-/

namespace Formula.Regex

structure Flags where
  ignoreCase : Bool := false
  multiLine : Bool := false
  dotNewline : Bool := false
  unicode : Bool := true
  crlf : Bool := false
deriving DecidableEq, Repr

def Flags.set (f : Flags) (items : List FlagItem) : Flags where
  ignoreCase := (flagState? false .ignoreCase items).getD f.ignoreCase
  multiLine := (flagState? false .multiLine items).getD f.multiLine
  dotNewline := (flagState? false .dotNewline items).getD f.dotNewline
  unicode := (flagState? false .unicode items).getD f.unicode
  crlf := (flagState? false .crlf items).getD f.crlf

/-- A set of characters, and whether it is known to hold each letter in both cases. -/
structure ClassSet where
  ranges : Ranges
  folded : Bool
deriving DecidableEq, Repr

namespace ClassSet

def empty : ClassSet := ⟨[], true⟩

def ofRanges (rs : List (Nat × Nat)) : ClassSet := ⟨Ranges.ofList rs, rs.isEmpty⟩

def insert (s : ClassSet) (lo hi : Nat) : ClassSet := ⟨s.ranges.union [(lo, hi)], false⟩

def union (s t : ClassSet) : ClassSet :=
  if t.ranges.isEmpty || s.ranges = t.ranges then s
  else ⟨s.ranges.union t.ranges, s.folded && t.folded⟩

def intersection (top : Nat) (s t : ClassSet) : ClassSet :=
  if s.ranges.isEmpty then s
  else if t.ranges.isEmpty then empty
  else ⟨s.ranges.intersection top t.ranges, s.folded && t.folded⟩

def difference (top : Nat) (s t : ClassSet) : ClassSet :=
  if s.ranges.isEmpty || t.ranges.isEmpty then s
  else ⟨s.ranges.difference top t.ranges, s.folded && t.folded⟩

def symmetricDifference (top : Nat) (s t : ClassSet) : ClassSet :=
  (s.union t).difference top (s.intersection top t)

def complement (top : Nat) (s : ClassSet) : ClassSet :=
  ⟨s.ranges.complement top, s.folded || s.ranges.isEmpty⟩

/-- The part of a range within another one, moved. -/
def moved (r : Nat × Nat) (lo hi : Nat) (move : Nat → Nat) : List (Nat × Nat) :=
  let first := max r.1 lo
  let last := min r.2 hi
  if first ≤ last then [(move first, move last)] else []

def foldAscii (s : ClassSet) : ClassSet :=
  let others := s.ranges.flatMap fun r ↦
    moved r 0x61 0x7a (· - 0x20) ++ moved r 0x41 0x5a (· + 0x20)
  ⟨s.ranges.union others, true⟩

def isAscii (s : ClassSet) : Bool := s.ranges.all fun (_, hi) ↦ hi < 0x80

end ClassSet

namespace Flags

/-- The largest number of a character or of a byte. -/
def top (f : Flags) : Nat := if f.unicode then 0x10ffff else 0xff

def fold (f : Flags) (span : Span) (s : ClassSet) : Except Fault ClassSet :=
  if !f.ignoreCase then .ok s
  else if !f.unicode then .ok s.foldAscii
  else if s.folded then .ok s
  else .error { cause := .caseUnavailable, span := span }

/-- A set that holds bytes is of use only if they are ASCII characters. -/
def checked (f : Flags) (span : Span) (s : ClassSet) : Except Fault ClassSet :=
  if !f.unicode && !s.isAscii then .error { cause := .invalidUtf8, span := span } else .ok s

def finish (f : Flags) (span : Span) (negated : Bool) (s : ClassSet) : Except Fault ClassSet := do
  let s ← f.fold span s
  f.checked span (if negated then s.complement f.top else s)

/-- The number of a character that is written by itself. A byte that is no ASCII character is not
part of a text. -/
def literalNumber (f : Flags) (l : Literal) : Except Fault Nat :=
  if !f.unicode && l.isByte && 0x7f < l.char.toNat then
    .error { cause := .invalidUtf8, span := l.span }
  else .ok l.char.toNat

def memberNumber (f : Flags) (l : Literal) : Except Fault Nat := do
  let n ← f.literalNumber l
  if !f.unicode && 0x7f < n then .error { cause := .unicodeNotAllowed, span := l.span }
  else return n

def wordClass (f : Flags) (i : WordClassItem) : Except Fault ClassSet :=
  if f.unicode then .error { cause := .wordClassNotFound, span := i.span }
  else
    let s := ClassSet.ofRanges <| match i.kind with
      | .digit => AsciiClass.digit.ranges
      | .space => AsciiClass.space.ranges
      | .word => AsciiClass.word.ranges
    f.checked i.span (if i.negated then s.complement f.top else s)

/-- A property name without case, blanks, dashes and underscores, and without `is` before it. -/
def plainName (name : String) : String :=
  let cs := name.toList
  let cs := if (cs.take 2).map Char.toLower = ['i', 's'] then cs.drop 2 else cs
  String.ofList <| (cs.filter fun c ↦ c.toNat < 0x80 && c ≠ ' ' && c ≠ '_' && c ≠ '-').map
    Char.toLower

/-- No property is known. Three names that can only be meant as values are refused as such. -/
def property (f : Flags) (i : PropertyItem) : Except Fault ClassSet :=
  if !f.unicode then .error { cause := .unicodeNotAllowed, span := i.span }
  else if !i.hasValue && ["cf", "sc", "lc"].contains (plainName i.name) then
    .error { cause := .propertyValueNotFound, span := i.span }
  else .error { cause := .propertyNotFound, span := i.span }

mutual

def extended (f : Flags) (s : ClassSet) : ClassItem → Except Fault ClassSet
  | .empty _ => .ok s
  | .literal l => do
    let n ← f.memberNumber l
    return s.insert n n
  | .range _ lo hi => do
    let lo ← f.memberNumber lo
    let hi ← f.memberNumber hi
    return s.insert lo hi
  | .ascii span kind negated => do
    return s.union (← f.finish span negated (ClassSet.ofRanges kind.ranges))
  | .property i => do return s.union (← f.property i)
  | .wordClass i => do return s.union (← f.wordClass i)
  | .bracketed span negated inner => do
    return s.union (← f.finish span negated (← f.extended .empty inner))
  | .union _ items => f.extendedAll s items
  | .op _ kind lhs rhs => do
    let left ← f.extended .empty lhs
    let right ← f.extended .empty rhs
    let right ← f.fold rhs.span right
    let left ← f.fold lhs.span left
    return s.union <| match kind with
      | .intersection => left.intersection f.top right
      | .difference => left.difference f.top right
      | .symmetricDifference => left.symmetricDifference f.top right

def extendedAll (f : Flags) (s : ClassSet) : List ClassItem → Except Fault ClassSet
  | [] => .ok s
  | i :: rest => do f.extendedAll (← f.extended s i) rest

end

end Flags

end Formula.Regex
