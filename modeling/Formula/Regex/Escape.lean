import Formula.Regex.Ast
import Formula.Regex.Cursor
import Formula.Regex.Fault

/-!
# Single parts of a pattern

A primitive is a character, a class with a letter or a property, or a condition on a place. Most
primitives start with a backslash.
-/

namespace Formula.Regex

inductive Primitive where
  | literal (l : Literal)
  | dot (span : Span)
  | assertion (span : Span) (kind : Assertion)
  | property (item : PropertyItem)
  | wordClass (item : WordClassItem)
deriving Repr

namespace Primitive

def span : Primitive → Span
  | literal l => l.span
  | dot s | assertion s _ => s
  | property i => i.span
  | wordClass i => i.span

def toAst : Primitive → Ast
  | literal l => .literal l
  | dot s => .dot s
  | assertion s kind => .assertion s kind
  | property i => .property i
  | wordClass i => .wordClass i

def toClassItem : Primitive → Except Fault ClassItem
  | literal l => .ok (.literal l)
  | property i => .ok (.property i)
  | wordClass i => .ok (.wordClass i)
  | p => .error { cause := .classEscapeInvalid, span := p.span }

def toBound : Primitive → Except Fault Literal
  | literal l => .ok l
  | p => .error { cause := .classRangeLiteral, span := p.span }

end Primitive

def isMeta (c : Char) : Bool := "\\.+*?()|[]\x7b\x7d^$#&-~".toList.contains c

/-- Whether a backslash before a character gives that character. -/
def isEscapable (c : Char) : Bool :=
  isMeta c || (c.toNat < 0x80 && !c.isAlphanum && c ≠ '<' && c ≠ '>')

def isHex (c : Char) : Bool :=
  c.isDigit || ('a' ≤ c && c ≤ 'f') || ('A' ≤ c && c ≤ 'F')

def hexDigit (c : Char) : Nat :=
  if c.isDigit then c.toNat - 0x30
  else if 'a' ≤ c then c.toNat - 0x61 + 10
  else c.toNat - 0x41 + 10

def hexValue (digits : List Char) : Nat := digits.foldl (fun n c ↦ 16 * n + hexDigit c) 0

def scalar? (n : Nat) : Option Char := if n.isValidChar then some (Char.ofNat n) else none

def hexDigits : Nat → Cursor → Except Fault (List Char × Cursor)
  | 0, c => .ok ([], c)
  | n + 1, c =>
    match c.rest with
    | [] => .error { cause := .escapeUnfinished, span := c.here }
    | ch :: _ =>
      if isHex ch then do
        let (digits, behind) ← hexDigits n c.advance
        return (ch :: digits, behind)
      else .error { cause := .hexDigitInvalid, span := c.char }

/-- A character by its number, from the letter that announces it. -/
def hexLiteral (start : Position) (digits : Nat) (c : Cursor) :
    Except Fault (Primitive × Cursor) := do
  let c := c.advance
  match c.rest with
  | [] => .error { cause := .escapeUnfinished, span := c.here }
  | '\x7b' :: _ =>
    let inner := c.next.position
    let (hex, behind) := c.advance.span isHex
    match behind.rest with
    | [] => .error { cause := .escapeUnfinished, span := behind.since c.position }
    | '\x7d' :: _ =>
      let after := behind.advance
      if hex.isEmpty then .error { cause := .hexEmpty, span := after.since c.position }
      else
        match scalar? (hexValue hex) with
        | some ch => return (.literal { span := after.since start, char := ch }, after)
        | none => .error { cause := .hexInvalid, span := behind.since inner }
    | _ => .error { cause := .hexDigitInvalid, span := behind.char }
  | _ =>
    let (hex, behind) ← hexDigits digits c
    match scalar? (hexValue hex) with
    | some ch =>
      return (.literal { span := behind.since start, char := ch, isByte := digits = 2 }, behind)
    | none => .error { cause := .hexInvalid, span := behind.since c.position }

/-- A class by a property, from the letter that announces it. The name ends at the first sign that
gives it a value. -/
def propertyClass (start : Position) (negated : Bool) (c : Cursor) :
    Except Fault (Primitive × Cursor) := do
  let c := c.advance
  match c.rest with
  | [] => .error { cause := .escapeUnfinished, span := c.here }
  | '\x7b' :: _ =>
    let (name, behind) := c.advance.span (· ≠ '\x7d')
    if behind.atEnd then .error { cause := .escapeUnfinished, span := behind.here }
    else
      let after := behind.next
      let text := String.ofList name
      return (.property
        { span := after.since start, name := text, negated := negated,
          hasValue := name.contains ':' || name.contains '=' }, after)
  | '\\' :: _ => .error { cause := .propertyInvalid, span := c.char }
  | ch :: _ =>
    let after := c.advance
    return (.property
      { span := after.since start, name := ch.toString, negated := negated, hasValue := false },
      after)

/-- What may follow `\b` between braces; nothing if the braces hold a count. -/
def boundaryName (start : Position) (c : Cursor) :
    Except Fault (Option (Assertion × Cursor)) :=
  let inner := c.advance
  let isLetter (ch : Char) : Bool := ch.isAlpha || ch = '-'
  match inner.rest with
  | [] => .error { cause := .boundaryUnfinished, span := inner.since start }
  | ch :: _ =>
    if !isLetter ch then .ok none
    else
      let (name, behind) := inner.span isLetter
      if behind.rest.head? ≠ some '\x7d' then
        .error { cause := .boundaryUnclosed, span := behind.since c.position }
      else
        match String.ofList name with
        | "start" => .ok (some (.wordStart, behind.next))
        | "end" => .ok (some (.wordEnd, behind.next))
        | "start-half" => .ok (some (.wordStartHalf, behind.next))
        | "end-half" => .ok (some (.wordEndHalf, behind.next))
        | _ => .error { cause := .boundaryUnrecognized, span := behind.since inner.position }

def control? : Char → Option Char
  | 'a' => some '\x07'
  | 'f' => some '\x0c'
  | 't' => some '\t'
  | 'n' => some '\n'
  | 'r' => some '\r'
  | 'v' => some '\x0b'
  | _ => none

def assertion? : Char → Option Assertion
  | 'A' => some .startText
  | 'z' => some .endText
  | 'b' => some .boundary
  | 'B' => some .notBoundary
  | '<' => some .wordStart
  | '>' => some .wordEnd
  | _ => none

def wordClass? : Char → Option (WordClass × Bool)
  | 'd' => some (.digit, false)
  | 's' => some (.space, false)
  | 'w' => some (.word, false)
  | 'D' => some (.digit, true)
  | 'S' => some (.space, true)
  | 'W' => some (.word, true)
  | _ => none

def hexWidth? : Char → Option Nat
  | 'x' => some 2
  | 'u' => some 4
  | 'U' => some 8
  | _ => none

def escape (c : Cursor) : Except Fault (Primitive × Cursor) :=
  let start := c.position
  let c := c.next
  match c.rest with
  | [] => .error { cause := .escapeUnfinished, span := c.since start }
  | ch :: _ =>
    let after := c.next
    let span := after.since start
    if ch.isDigit then .error { cause := .backreference, span := span }
    else if let some width := hexWidth? ch then hexLiteral start width c
    else if ch = 'p' || ch = 'P' then propertyClass start (ch = 'P') c
    else if let some (kind, negated) := wordClass? ch then
      .ok (.wordClass { span := span, kind := kind, negated := negated }, after)
    else if isEscapable ch then .ok (.literal { span := span, char := ch }, after)
    else if let some control := control? ch then
      .ok (.literal { span := span, char := control }, after)
    else if ch = 'b' && after.rest.head? = some '\x7b' then do
      match ← boundaryName start after with
      | some (kind, behind) => return (.assertion (behind.since start) kind, behind)
      | none => return (.assertion span .boundary, after)
    else if let some kind := assertion? ch then .ok (.assertion span kind, after)
    else .error { cause := .escapeUnrecognized, span := span }

def primitive (c : Cursor) : Except Fault (Primitive × Cursor) :=
  match c.rest with
  | '\\' :: _ => escape c
  | '.' :: _ => .ok (.dot c.char, c.next)
  | '^' :: _ => .ok (.assertion c.char .startLine, c.next)
  | '$' :: _ => .ok (.assertion c.char .endLine, c.next)
  | ch :: _ => .ok (.literal { span := c.char, char := ch }, c.next)
  | [] => .error { cause := .escapeUnfinished, span := c.here }

end Formula.Regex
