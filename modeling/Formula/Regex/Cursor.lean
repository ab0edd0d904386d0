import Formula.Regex.Span
import Formula.Text.Blank

/-!
# Reading a pattern

A cursor is the part of a pattern that is still to be read. In a pattern written freely, blanks and
comments, which run from `#` to the end of the line, are skipped.
-/

namespace Formula.Regex

structure Cursor where
  rest : List Char
  position : Position
  /-- Whether blanks and comments mean nothing. -/
  free : Bool
deriving DecidableEq, Repr

namespace Cursor

def ofText (pattern : String) : Cursor := ⟨pattern.toList, .start, false⟩

def atEnd (c : Cursor) : Bool := c.rest.isEmpty

def next (c : Cursor) : Cursor :=
  match c.rest with
  | [] => c
  | ch :: rest => ⟨rest, c.position.after ch, c.free⟩

/-- What is left behind blanks and comments. -/
def skipFrom (comment : Bool) : List Char → Position → List Char × Position
  | [], p => ([], p)
  | ch :: rest, p =>
    if comment then skipFrom (ch ≠ '\n') rest (p.after ch)
    else if Text.isBlank ch then skipFrom false rest (p.after ch)
    else if ch = '#' then skipFrom true rest (p.after ch)
    else (ch :: rest, p)

def skip (c : Cursor) : Cursor :=
  if c.free then
    let (rest, position) := skipFrom false c.rest c.position
    ⟨rest, position, true⟩
  else c

def advance (c : Cursor) : Cursor := c.next.skip

def here (c : Cursor) : Span := .point c.position

def char (c : Cursor) : Span := ⟨c.position, c.next.position⟩

def since (c : Cursor) (p : Position) : Span := ⟨p, c.position⟩

def dropText? (c : Cursor) : List Char → Option Cursor
  | [] => some c
  | ch :: more => if c.rest.head? = some ch then c.next.dropText? more else none

/-- The first character of a text that is no blank and does not open a comment; within an opened
comment, any that is no blank. -/
def significant? (comment : Bool) : List Char → Option Char
  | [] => none
  | ch :: rest =>
    if Text.isBlank ch then significant? comment rest
    else if !comment && ch = '#' then significant? true rest
    else some ch

/-- The character after the next one, with blanks passed over where they mean nothing. -/
def second? (c : Cursor) : Option Char :=
  let behind := c.rest.drop 1
  if c.free then significant? false behind <|> behind.head? else behind.head?

def skipBlanks (c : Cursor) : Cursor :=
  let blanks := c.rest.takeWhile Text.isBlank
  ⟨c.rest.drop blanks.length, blanks.foldl Position.after c.position, c.free⟩

theorem length_skipFrom_le (comment : Bool) (cs : List Char) (p : Position) :
    (skipFrom comment cs p).1.length ≤ cs.length := by
  induction cs generalizing comment p with
  | nil => simp [skipFrom]
  | cons c cs ih =>
    simp only [skipFrom]
    split
    · exact Nat.le_succ_of_le (ih _ _)
    · split
      · exact Nat.le_succ_of_le (ih _ _)
      · split
        · exact Nat.le_succ_of_le (ih _ _)
        · exact Nat.le_refl _

theorem length_skip_le (c : Cursor) : c.skip.rest.length ≤ c.rest.length := by
  unfold skip
  split
  · exact length_skipFrom_le false c.rest c.position
  · exact Nat.le_refl _

theorem length_next_lt {c : Cursor} (h : c.rest ≠ []) : c.next.rest.length < c.rest.length := by
  unfold next
  cases hr : c.rest with
  | nil => exact absurd hr h
  | cons ch rest => simp

theorem length_advance_lt {c : Cursor} (h : c.rest ≠ []) :
    c.advance.rest.length < c.rest.length :=
  Nat.lt_of_le_of_lt (length_skip_le c.next) (length_next_lt h)

def span (test : Char → Bool) (c : Cursor) : List Char × Cursor :=
  match _h : c.rest with
  | [] => ([], c)
  | ch :: _ =>
    if test ch then
      let (taken, behind) := span test c.advance
      (ch :: taken, behind)
    else ([], c)
termination_by c.rest.length
decreasing_by exact length_advance_lt (by simp_all)

end Cursor

end Formula.Regex
