import Formula.Regex.Escape

/-!
# Classes between brackets

A class lists characters, ranges and other classes, and may combine what stands left and right of
`&&`, `--` or `~~`; these bind equally and to the left.
-/

namespace Formula.Regex

/-- What a class lists so far, the last item first. -/
structure Listing where
  span : Span
  items : List ClassItem

namespace Listing

def none (p : Position) : Listing := ⟨.point p, []⟩

def push (l : Listing) (i : ClassItem) : Listing :=
  ⟨⟨if l.items.isEmpty then i.span.first else l.span.first, i.span.stop⟩, i :: l.items⟩

def toItem (l : Listing) : ClassItem :=
  match l.items with
  | [] => .empty l.span
  | [i] => i
  | items => .union l.span items.reverse

end Listing

/-- What is open while a class is read, the innermost first. -/
inductive ClassFrame where
  | bracket (around : Listing) (span : Span) (negated : Bool)
  | operand (kind : SetOp) (lhs : ClassItem)

structure ClassState where
  cursor : Cursor
  listing : Listing
  frames : List ClassFrame

namespace ClassState

/-- Dashes at the start of a class, which stand for themselves. -/
def dashes (l : Listing) (c : Cursor) : Listing × Cursor :=
  match _h : c.rest with
  | '-' :: _ => dashes (l.push (.literal { span := c.char, char := '-' })) c.advance
  | _ => (l, c)
termination_by c.rest.length
decreasing_by exact Cursor.length_advance_lt (by simp_all)

/-- Opens a bracket. A closing bracket that comes first stands for itself. -/
def opened (s : ClassState) : Except Fault ClassState := do
  let start := s.cursor.position
  let unclosed (span : Span) : Except Fault ClassState :=
    .error { cause := .classUnclosed, span := span }
  let c := s.cursor.advance
  if c.atEnd then unclosed (c.since start)
  else
    let negated := c.rest.head? = some '^'
    let c := if negated then c.advance else c
    if c.atEnd then unclosed (c.since start)
    else
      let (l, c) := dashes (.none c.position) c
      if c.atEnd then unclosed (.point start)
      else if l.items.isEmpty && c.rest.head? = some ']' then
        let behind := c.advance
        if behind.atEnd then unclosed (behind.since start)
        else
          let l := l.push (.literal { span := c.char, char := ']' })
          return ⟨behind, l, .bracket s.listing (behind.since start) negated :: s.frames⟩
      else return ⟨c, l, .bracket s.listing (c.since start) negated :: s.frames⟩

def unclosed (frames : List ClassFrame) (c : Cursor) : Fault :=
  let span := frames.findSome? fun f ↦ match f with
    | .bracket _ span _ => some span
    | .operand _ _ => none
  { cause := .classUnclosed, span := span.getD c.here }

def ascii? (c : Cursor) : Option (ClassItem × Cursor) := do
  let inner ← c.dropText? ['[', ':']
  let negated := inner.rest.head? = some '^'
  let inner := if negated then inner.next else inner
  let name := inner.rest.takeWhile (· ≠ ':')
  let behind ← inner.dropText? (name ++ [':', ']'])
  let kind ← AsciiClass.ofName? (String.ofList name)
  return (.ascii (behind.since c.position) kind negated, behind)

def joined (rhs : ClassItem) : List ClassFrame → ClassItem × List ClassFrame
  | .operand kind lhs :: frames => (.op ⟨lhs.span.first, rhs.span.stop⟩ kind lhs rhs, frames)
  | frames => (rhs, frames)

def operated (s : ClassState) (kind : SetOp) : ClassState :=
  let (lhs, frames) := joined s.listing.toItem s.frames
  let c := s.cursor.next.next
  ⟨c, .none c.position, .operand kind lhs :: frames⟩

def ranged (frames : List ClassFrame) (c : Cursor) : Except Fault (ClassItem × Cursor) := do
  let item (c : Cursor) : Except Fault (Primitive × Cursor) :=
    match c.rest with
    | '\\' :: _ => escape c
    | ch :: _ => .ok (.literal { span := c.char, char := ch }, c.next)
    | [] => .error (unclosed frames c)
  let (first, behind) ← item c
  let behind := behind.skip
  if behind.atEnd then .error (unclosed frames c)
  else if behind.rest.head? ≠ some '-' || [some ']', some '-'].contains behind.second? then
    return (← first.toClassItem, behind)
  else
    let c := behind.advance
    if c.atEnd then .error (unclosed frames c)
    else
      let (last, behind) ← item c
      let span : Span := ⟨first.span.first, last.span.stop⟩
      let lo ← first.toBound
      let hi ← last.toBound
      if lo.char ≤ hi.char then return (.range span lo hi, behind)
      else .error { cause := .classRangeInvalid, span := span }

def closed (s : ClassState) : Except Fault (ClassState ⊕ Ast × Cursor) :=
  let (set, frames) := joined s.listing.toItem s.frames
  let c := s.cursor.next
  match frames with
  | .bracket around span negated :: rest =>
    let span : Span := ⟨span.first, c.position⟩
    if rest.isEmpty then .ok (.inr (.bracketed span negated set, c))
    else .ok (.inl ⟨c, around.push (.bracketed span negated set), rest⟩)
  | _ => .error (unclosed frames c)

def step (s : ClassState) : Except Fault (ClassState ⊕ Ast × Cursor) := do
  let c := s.cursor.skip
  let s := { s with cursor := c }
  match c.rest with
  | [] => .error (unclosed s.frames c)
  | '[' :: _ =>
    match if s.frames.isEmpty then none else ascii? c with
    | some (item, behind) => return .inl { s with cursor := behind, listing := s.listing.push item }
    | none => return .inl (← s.opened)
  | ']' :: _ => s.closed
  | '&' :: '&' :: _ => return .inl (s.operated .intersection)
  | '-' :: '-' :: _ => return .inl (s.operated .difference)
  | '~' :: '~' :: _ => return .inl (s.operated .symmetricDifference)
  | _ =>
    let (item, behind) ← ranged s.frames c
    return .inl { s with cursor := behind, listing := s.listing.push item }

def run : Nat → ClassState → Except Fault (Ast × Cursor)
  | 0, s => .error (unclosed s.frames s.cursor)
  | n + 1, s => do
    match ← s.step with
    | .inl s => run n s
    | .inr done => return done

end ClassState

/-- The class that starts with the bracket at the cursor. Every step reads at least one character.
-/
def bracketed (c : Cursor) : Except Fault (Ast × Cursor) :=
  ClassState.run (c.rest.length + 1) ⟨c, .none c.position, []⟩

end Formula.Regex
