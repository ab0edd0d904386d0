/-!
# Places in a pattern

A position counts lines and columns from one, in characters; a span runs from a position up to
another.
-/

namespace Formula.Regex

structure Position where
  line : Nat
  column : Nat
deriving DecidableEq, Repr

namespace Position

def start : Position := ⟨1, 1⟩

def after (p : Position) (c : Char) : Position :=
  if c = '\n' then ⟨p.line + 1, 1⟩ else ⟨p.line, p.column + 1⟩

def atMost (p q : Position) : Bool := p.line < q.line || (p.line = q.line && p.column ≤ q.column)

end Position

structure Span where
  first : Position
  stop : Position
deriving DecidableEq, Repr

namespace Span

def point (p : Position) : Span := ⟨p, p⟩

def isOneLine (s : Span) : Bool := s.first.line = s.stop.line

/-- The order of spans: by where they begin, then by where they end. -/
def atMost (s t : Span) : Bool :=
  if s.first = t.first then s.stop.atMost t.stop else s.first.atMost t.first

/-- What a column of carets shows of a span in its line. An empty span is shown as one caret. -/
def carets (s : Span) : Nat := max 1 (s.stop.column - s.first.column)

end Span

end Formula.Regex
